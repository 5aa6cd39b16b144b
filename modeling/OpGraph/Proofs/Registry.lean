import OpGraph.Proofs.Sorting
import OpGraph.Schema.Registry

/-!
Lookups in a registry whose operators all belong to one domain. The versions of an operator are kept in ascending order,
each with its last registration, so a lookup finds the last registration of the latest version that is not too new. What
is found, and how the names are listed, does not depend on the order in which different names or versions were registered.
-/

namespace OpGraph

open List

namespace Members

variable {α : Type}

theorem keys_set (ms : List (String × α)) (key : String) (v : α) :
    (set ms key v).map (·.1) = if key ∈ ms.map (·.1) then ms.map (·.1) else ms.map (·.1) ++ [key] := by
  induction ms with
  | nil => rfl
  | cons m ms ih =>
    obtain ⟨k, w⟩ := m
    by_cases hk : k = key
    · simp [set, hk]
    · simp only [set, if_neg hk, map_cons, ih, mem_cons, Ne.symm hk, false_or]
      split <;> rfl

end Members

namespace Registry

variable {d n : String} {version : Option ℤ} {s t : OpSchema} {vs ss : List OpSchema}

/-! ### Versions of an operator -/

/-- Versions in ascending order, each of them once. -/
def Ascending (vs : List OpSchema) : Prop :=
  vs.Pairwise (·.since < ·.since)

theorem mem_insertVersion (h : Ascending vs) : t ∈ insertVersion s vs ↔ t = s ∨ t ∈ vs ∧ t.since ≠ s.since := by
  induction vs with
  | nil => simp [insertVersion]
  | cons u vs ih =>
    obtain ⟨hu, hvs⟩ := pairwise_cons.1 h
    have hlater : ∀ w ∈ vs, s.since ≤ u.since → w.since ≠ s.since := fun w hw hle => by
      have := hu w hw
      omega
    have ih := ih hvs
    simp only [insertVersion]
    split
    · simp only [mem_cons]
      grind
    · split <;> simp only [mem_cons] <;> grind

theorem ascending_insertVersion (h : Ascending vs) : Ascending (insertVersion s vs) := by
  induction vs with
  | nil => exact pairwise_singleton _ _
  | cons u vs ih =>
    obtain ⟨hu, hvs⟩ := pairwise_cons.1 h
    simp only [insertVersion]
    split
    · rename_i hlt
      refine pairwise_cons.2 ⟨fun w hw => ?_, h⟩
      rcases mem_cons.1 hw with rfl | hw
      · exact hlt
      · exact hlt.trans (hu w hw)
    · split
      · rename_i heq
        exact pairwise_cons.2 ⟨fun w hw => heq ▸ hu w hw, hvs⟩
      · refine pairwise_cons.2 ⟨fun w hw => ?_, ih hvs⟩
        rcases (mem_insertVersion hvs).1 hw with rfl | ⟨hw, -⟩
        · omega
        · exact hu w hw

theorem getLast?_eq_some_iff (h : Ascending vs) : vs.getLast? = some s ↔ s ∈ vs ∧ ∀ t ∈ vs, t.since ≤ s.since := by
  induction vs using List.reverseRecOn with
  | nil => simp
  | append_singleton vs u =>
    have hu : ∀ t ∈ vs, t.since < u.since := fun t ht =>
      (pairwise_append.1 h).2.2 t ht u mem_cons_self
    rw [getLast?_concat, Option.some.injEq]
    constructor
    · rintro rfl
      refine ⟨by simp, fun t ht => ?_⟩
      rcases mem_append.1 ht with ht | ht
      · exact (hu t ht).le
      · rw [mem_singleton.1 ht]
    · rintro ⟨hs, hmax⟩
      rcases mem_append.1 hs with hs | hs
      · have := hmax u (by simp)
        have := hu s hs
        omega
      · exact (mem_singleton.1 hs).symm

/-! ### Registrations -/

/-- Whether a schema is not newer than the version, if one is given. -/
def Within (version : Option ℤ) (s : OpSchema) : Prop :=
  ∀ v ∈ version, s.since ≤ v

instance : DecidablePred (Within version) :=
  fun s => inferInstanceAs (Decidable (∀ v ∈ version, s.since ≤ v))

/-- Whether a schema was registered under a name, and after all others of the name and of its version. -/
def IsLast (ss : List OpSchema) (n : String) (s : OpSchema) : Prop :=
  (ss.filter fun t => t.name = n ∧ t.since = s.since).getLast? = some s

theorem IsLast.mem (h : IsLast ss n s) : s ∈ ss ∧ s.name = n := by
  have := mem_filter.1 (mem_of_getLast? h)
  simpa using this

theorem isLast_append : IsLast (ss ++ [t]) n s ↔ if t.name = n ∧ t.since = s.since then t = s else IsLast ss n s := by
  unfold IsLast
  rw [filter_append, filter_singleton]
  split
  · rename_i h
    rw [decide_eq_true h, cond_true, getLast?_concat, Option.some.injEq]
  · rename_i h
    rw [decide_eq_false h, cond_false, append_nil]

theorem exists_isLast (h : t ∈ ss) : ∃ s, IsLast ss t.name s ∧ s.since = t.since := by
  have ht : t ∈ ss.filter fun u => u.name = t.name ∧ u.since = t.since := by simpa using h
  obtain ⟨s, hs⟩ := Option.isSome_iff_exists.1 (getLast?_isSome.2 (ne_nil_of_mem ht))
  have hsince : s.since = t.since := by
    have := (mem_filter.1 (mem_of_getLast? hs)).2
    simp_all
  exact ⟨s, by rwa [IsLast, hsince], hsince⟩

theorem key_inj {m : String} : key d n = key d m ↔ n = m := by
  simp [key]

theorem ofList_append (ss : List OpSchema) (s : OpSchema) : ofList (ss ++ [s]) = (ofList ss).register s := by
  simp [ofList]

theorem versions_register (r : Registry) (s : OpSchema) (k : String) : (r.register s).versions k =
    if key s.domain s.name = k then insertVersion s (r.versions k) else r.versions k := by
  unfold versions register
  rw [Members.get?_set]
  split
  · rename_i h
    rw [← h]
    rfl
  · rfl

/-- **What a registry keeps**: the last registration of each version, in ascending order. -/
theorem versions_ofList (hd : ∀ s ∈ ss, s.domain = d) (n : String) :
    Ascending ((ofList ss).versions (key d n)) ∧ ∀ s, s ∈ (ofList ss).versions (key d n) ↔ IsLast ss n s := by
  induction ss using List.reverseRecOn with
  | nil => exact ⟨Pairwise.nil, fun s => by simp [ofList, versions, Members.get?, IsLast]⟩
  | append_singleton ss t ih =>
    obtain ⟨hss, ht⟩ := forall_mem_append.1 hd
    obtain ⟨hascending, hmem⟩ := ih hss
    rw [ofList_append, versions_register, ht t mem_cons_self]
    by_cases hn : t.name = n
    · rw [if_pos (key_inj.2 hn)]
      refine ⟨ascending_insertVersion hascending, fun s => ?_⟩
      rw [mem_insertVersion hascending, hmem, isLast_append]
      grind
    · rw [if_neg (mt key_inj.1 hn)]
      refine ⟨hascending, fun s => ?_⟩
      rw [hmem, isLast_append]
      simp [hn]

theorem get?_eq (r : Registry) (d n : String) (version : Option ℤ) :
    r.get? d n version = ((r.versions (key d n)).filter (Within version ·)).getLast? := by
  cases version <;> simp [get?, Within]

/-- The last registration of the latest version of a name that is not too new. -/
@[mk_iff]
structure Latest (ss : List OpSchema) (n : String) (version : Option ℤ) (s : OpSchema) : Prop where
  last : IsLast ss n s
  within : Within version s
  greatest : ∀ t ∈ ss, t.name = n → Within version t → t.since ≤ s.since

theorem get?_ofList (hd : ∀ s ∈ ss, s.domain = d) :
    (ofList ss).get? d n version = some s ↔ Latest ss n version s := by
  obtain ⟨hascending, hmem⟩ := versions_ofList hd n
  rw [get?_eq, getLast?_eq_some_iff (Pairwise.filter _ hascending)]
  simp only [mem_filter, hmem, decide_eq_true_eq]
  constructor
  · rintro ⟨⟨hlast, hwithin⟩, hmax⟩
    refine ⟨hlast, hwithin, fun t ht hname hw => ?_⟩
    obtain ⟨u, hu, hsince⟩ := exists_isLast ht
    rw [← hsince]
    exact hmax u ⟨hname ▸ hu, fun v hv => hsince ▸ hw v hv⟩
  · rintro ⟨hlast, hwithin, hmax⟩
    exact ⟨⟨hlast, hwithin⟩, fun t ht => hmax t ht.1.mem.1 ht.1.mem.2 ht.2⟩

theorem contains_ofList (hd : ∀ s ∈ ss, s.domain = d) :
    (ofList ss).contains d n version = true ↔ ∃ t ∈ ss, t.name = n ∧ Within version t := by
  constructor
  · intro h
    obtain ⟨s, hs⟩ := Option.isSome_iff_exists.1 h
    have hlatest := (get?_ofList hd).1 hs
    exact ⟨s, hlatest.last.mem.1, hlatest.last.mem.2, hlatest.within⟩
  · rintro ⟨t, ht, rfl, hw⟩
    obtain ⟨s, hs, hsince⟩ := exists_isLast ht
    rw [contains, get?_eq, getLast?_isSome]
    refine ne_nil_of_mem (mem_filter.2 ⟨((versions_ofList hd _).2 s).2 hs, decide_eq_true ?_⟩)
    exact fun v hv => hsince ▸ hw v hv

/-! ### Names -/

theorem keys_ofList (ss : List OpSchema) : ((ofList ss).entries.map (·.1)).Nodup ∧
    ∀ k, k ∈ (ofList ss).entries.map (·.1) ↔ ∃ s ∈ ss, key s.domain s.name = k := by
  induction ss using List.reverseRecOn with
  | nil => simp [ofList]
  | append_singleton ss t ih =>
    obtain ⟨hnodup, hmem⟩ := ih
    rw [ofList_append]
    simp only [register, Members.keys_set, mem_append, mem_singleton]
    split
    · rename_i h
      rw [hmem] at h
      exact ⟨hnodup, fun k => by rw [hmem]; grind⟩
    · rename_i h
      refine ⟨hnodup.append (nodup_singleton _) (disjoint_singleton.2 h), fun k => ?_⟩
      rw [mem_append, hmem, mem_singleton]
      grind

/-- The operator of a domain that a key is that of. -/
def nameIn (d k : String) : Option String :=
  if (key d "").toList.isPrefixOf k.toList then some (String.ofList (k.toList.drop (key d "").toList.length)) else none

theorem nameIn_eq_some_iff {k : String} : nameIn d k = some n ↔ key d n = k := by
  have hkey : (key d n).toList = (key d "").toList ++ n.toList := by simp [key]
  unfold nameIn
  rw [← String.toList_inj, hkey]
  split
  · rename_i h
    obtain ⟨rest, hrest⟩ := isPrefixOf_iff_prefix.1 h
    rw [← hrest, drop_left, Option.some.injEq, ← String.toList_inj, String.toList_ofList, append_cancel_left_eq]
    exact eq_comm
  · rename_i h
    simp only [reduceCtorEq, false_iff]
    exact fun heq => h <| isPrefixOf_iff_prefix.2 ⟨_, heq⟩

theorem names_perm (r : Registry) (d : String) : (r.names d).Perm ((r.entries.map (·.1)).filterMap (nameIn d)) := by
  rw [filterMap_map]
  exact Text.perm_sortBy id _

theorem mem_names_ofList (hd : ∀ s ∈ ss, s.domain = d) : n ∈ (ofList ss).names d ↔ ∃ t ∈ ss, t.name = n := by
  rw [(names_perm _ d).mem_iff, mem_filterMap]
  simp only [nameIn_eq_some_iff, (keys_ofList ss).2]
  constructor
  · rintro ⟨k, ⟨s, hs, rfl⟩, hk⟩
    rw [hd s hs, key_inj] at hk
    exact ⟨s, hs, hk.symm⟩
  · rintro ⟨t, ht, rfl⟩
    exact ⟨_, ⟨t, ht, rfl⟩, by rw [hd t ht]⟩

theorem nodup_names_ofList (ss : List OpSchema) (d : String) : ((ofList ss).names d).Nodup := by
  rw [(names_perm _ d).nodup_iff]
  refine (keys_ofList ss).1.filterMap fun k k' n hk hk' => ?_
  exact (nameIn_eq_some_iff.1 hk).symm.trans (nameIn_eq_some_iff.1 hk')

/-- The same registrations, those of different names or versions possibly in another order. -/
def Reordered (ss ss' : List OpSchema) : Prop :=
  ∀ n v, ss'.filter (fun t => t.name = n ∧ t.since = v) = ss.filter fun t => t.name = n ∧ t.since = v

theorem Reordered.mem_iff {ss' : List OpSchema} (h : Reordered ss ss') : t ∈ ss' ↔ t ∈ ss := by
  have hfilter := congrArg (t ∈ ·) (h t.name t.since)
  simpa using hfilter

theorem Reordered.latest_iff {ss' : List OpSchema} (h : Reordered ss ss') :
    Latest ss' n version s ↔ Latest ss n version s := by
  simp only [Registry.latest_iff, IsLast, h n s.since, h.mem_iff]

/-- **A lookup finds the latest version**: the last registration of the greatest version of the name that is not too new.
It finds none only if there is none. The names of the domain are listed once each, by their units. The order in which
different names or versions were registered does not matter. -/
theorem lookup_latest (hd : ∀ s ∈ ss, s.domain = d) :
    (∀ n version s, (ofList ss).get? d n version = some s ↔ Latest ss n version s) ∧
    (∀ n version, (ofList ss).contains d n version = ((ofList ss).get? d n version).isSome ∧
      ((ofList ss).contains d n version = true ↔ ∃ t ∈ ss, t.name = n ∧ Within version t)) ∧
    ((∀ n, n ∈ (ofList ss).names d ↔ ∃ t ∈ ss, t.name = n) ∧ ((ofList ss).names d).Nodup ∧
      ((ofList ss).names d).Pairwise fun a b => Text.units a ≤ Text.units b) ∧
    ∀ ss', (∀ s ∈ ss', s.domain = d) → Reordered ss ss' →
      (∀ n version, (ofList ss').get? d n version = (ofList ss).get? d n version) ∧
        ((ofList ss').names d).map Text.units = ((ofList ss).names d).map Text.units := by
  refine ⟨fun _ _ _ => get?_ofList hd, fun _ _ => ⟨rfl, contains_ofList hd⟩,
    ⟨fun _ => mem_names_ofList hd, nodup_names_ofList ss d, Text.pairwise_sortBy id _⟩,
    fun ss' hd' h => ⟨fun n version => ?_, ?_⟩⟩
  · ext s
    rw [get?_ofList hd', get?_ofList hd, h.latest_iff]
  · have hperm : ((ofList ss').names d).Perm ((ofList ss).names d) := by
      rw [perm_ext_iff_of_nodup (nodup_names_ofList ss' d) (nodup_names_ofList ss d)]
      intro n
      simp only [mem_names_ofList hd', mem_names_ofList hd, h.mem_iff]
    refine (hperm.map _).eq_of_pairwise (fun a b _ _ => le_antisymm) ?_ ?_ <;>
      exact pairwise_map.2 (Text.pairwise_sortBy id _)

def sampleSchema (name : String) (since : ℤ) (input : String) : OpSchema :=
  ⟨name, "", since, [⟨input, "T", .single, true⟩], [], []⟩

/-- An operator in three versions, the middle one registered twice, around another operator. -/
def sampleSchemas : List OpSchema :=
  [sampleSchema "Add" 7 "A", sampleSchema "Abs" 1 "X", sampleSchema "Add" 1 "A", sampleSchema "Add" 7 "B",
    sampleSchema "Add" 13 "C"]

theorem lookup_latest_sample : (∀ s ∈ sampleSchemas, s.domain = "") ∧
    (ofList sampleSchemas).get? "" "Add" (some 10) = some (sampleSchema "Add" 7 "B") := by
  have hd : ∀ s ∈ sampleSchemas, s.domain = "" := by decide
  exact ⟨hd, ((lookup_latest hd).1 "Add" (some 10) _).2 ⟨rfl, by decide, by decide⟩⟩

end Registry

end OpGraph
