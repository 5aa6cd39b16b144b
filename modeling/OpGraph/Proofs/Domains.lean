import OpGraph.Proofs.Registry

/-!
Domains of a registry. The key of an operator is one text, and a registry tells operators apart by their keys: a lookup
depends on the registrations under the key that is looked up, and a list of names on those whose key starts with the
domain. Domains in which no two colons can meet a third have no keys in common with each other, so such domains do not
interfere. Others do.
-/

namespace OpGraph

open List

namespace Members

variable {α : Type} {p : String → Bool}

theorem get?_filter {key : String} (hp : p key) (ms : List (String × α)) :
    get? (ms.filter fun m => p m.1) key = get? ms key := by
  unfold get?
  rw [find?_filter]
  congr 2
  funext m
  by_cases h : m.1 = key <;> simp [h, hp]

theorem filter_set (ms : List (String × α)) (key : String) (v : α) : (set ms key v).filter (fun m => p m.1) =
    if p key then set (ms.filter fun m => p m.1) key v else ms.filter fun m => p m.1 := by
  induction ms with
  | nil => simp [set, filter_singleton, Bool.cond_eq_ite]
  | cons m ms ih =>
    obtain ⟨k, w⟩ := m
    by_cases hk : k = key
    · subst hk
      by_cases hp : p k <;> simp [set, hp]
    · rw [set, if_neg hk, filter_cons, filter_cons, ih]
      by_cases hp : p k
      · simp only [hp, if_true, set, if_neg hk]
        split <;> rfl
      · simp [hp]

end Members

namespace Registry

variable {d d' n : String}

/-- Registrations that are left out take away the entries of their keys and nothing else. -/
theorem ofList_filter (p : String → Bool) (ss : List OpSchema) :
    ofList (ss.filter fun s => p (key s.domain s.name)) = ⟨(ofList ss).entries.filter fun e => p e.1⟩ := by
  induction ss using reverseRecOn with
  | nil => rfl
  | append_singleton ss s ih =>
    rw [ofList_append, filter_append, filter_singleton]
    by_cases hp : p (key s.domain s.name)
    · simp only [hp, cond_true, ofList_append, ih, register, versions, Members.filter_set, if_true,
        Members.get?_filter hp]
    · simp [hp, ih, register, Members.filter_set]

theorem get?_ofList_filter (ss : List OpSchema) {p : String → Bool} (hp : p (key d n)) (version : Option ℤ) :
    (ofList (ss.filter fun s => p (key s.domain s.name))).get? d n version = (ofList ss).get? d n version := by
  simp only [ofList_filter, get?_eq, versions, Members.get?_filter hp]

theorem names_ofList_filter (ss : List OpSchema) {p : String → Bool} (hp : ∀ n, p (key d n)) :
    (ofList (ss.filter fun s => p (key s.domain s.name))).names d = (ofList ss).names d := by
  have hnames (r : Registry) : r.names d = Text.sortBy id (r.entries.filterMap fun e => nameIn d e.1) := rfl
  rw [ofList_filter, hnames, hnames, filterMap_filter]
  congr 2
  funext e
  split
  · rfl
  · rename_i he
    refine (Option.eq_none_iff_forall_ne_some.2 fun n hn => he ?_).symm
    rw [← nameIn_eq_some_iff.1 hn]
    exact hp n

/-- A domain that has no two colons in a row and none at its end. -/
def Plain (d : String) : Prop :=
  ¬ [':', ':'] <:+: d.toList ++ [':']

instance (d : String) : Decidable (Plain d) :=
  inferInstanceAs (Decidable (¬ _))

theorem toList_key (d n : String) : (key d n).toList = d.toList ++ ':' :: ':' :: n.toList := by
  simp [key]

/-- What a longer domain has beyond a shorter one starts with the colons of the shorter one's keys. -/
theorem Plain.eq_of_append {ds cs ns : List Char} (hd : Plain d) (hds : d.toList = ds ++ cs)
    (h : cs ++ ':' :: ':' :: ns = ':' :: ':' :: n.toList) : d.toList = ds := by
  rcases cs with _ | ⟨c, _ | ⟨c', cs⟩⟩
  · simpa using hds
  · refine absurd ⟨ds, [], ?_⟩ hd
    simp_all
  · refine absurd ⟨ds, cs ++ [':'], ?_⟩ hd
    simp_all

theorem Plain.domain_inj {m : String} (hd : Plain d) (hd' : Plain d') (h : key d n = key d' m) : d = d' := by
  rw [← String.toList_inj, toList_key, toList_key] at h
  rw [← String.toList_inj]
  rcases append_eq_append_iff.1 h with ⟨cs, hds, hcs⟩ | ⟨cs, hds, hcs⟩
  · exact (hd'.eq_of_append hds hcs.symm).symm
  · exact hd.eq_of_append hds hcs.symm

theorem Plain.key_eq_iff {m : String} (hd : Plain d) (hd' : Plain d') : key d n = key d' m ↔ d = d' ∧ n = m := by
  constructor
  · intro h
    obtain rfl := hd.domain_inj hd' h
    exact ⟨rfl, key_inj.1 h⟩
  · rintro ⟨rfl, rfl⟩
    rfl

theorem Plain.nameIn_isSome (hd : Plain d) (hd' : Plain d') : (nameIn d (key d' n)).isSome ↔ d' = d := by
  rw [Option.isSome_iff_exists]
  simp only [nameIn_eq_some_iff, hd.key_eq_iff hd']
  grind

/-- A lookup depends on the registrations under its key, and a list of names on those whose key starts with the domain.
If no domain has two colons in a row or one at its end, then these are the registrations of the operator and of the
domain. -/
theorem domains_separate (ss : List OpSchema) (d : String) :
    (∀ n version, (ofList (ss.filter fun s => key s.domain s.name = key d n)).get? d n version =
      (ofList ss).get? d n version) ∧
    (ofList (ss.filter fun s => (nameIn d (key s.domain s.name)).isSome)).names d = (ofList ss).names d ∧
    (Plain d → (∀ s ∈ ss, Plain s.domain) →
      (∀ n version, (ofList (ss.filter fun s => s.domain = d ∧ s.name = n)).get? d n version =
        (ofList ss).get? d n version) ∧
      (ofList (ss.filter fun s => s.domain = d)).names d = (ofList ss).names d) := by
  have hget (n version) := get?_ofList_filter (d := d) (n := n) ss (p := (· = key d n)) (by simp) version
  have hnames := names_ofList_filter (d := d) ss (p := fun k => (nameIn d k).isSome)
    fun n => by rw [nameIn_eq_some_iff.2 rfl]; rfl
  refine ⟨hget, hnames, fun hd hss => ⟨fun n version => ?_, ?_⟩⟩
  · rw [← hget n version]
    congr 2
    exact filter_congr fun s hs => by simp only [(hss s hs).key_eq_iff hd]
  · rw [← hnames]
    congr 2
    exact filter_congr fun s hs => Bool.eq_iff_iff.2 (by simpa using (hd.nameIn_isSome (hss s hs)).symm)

theorem domains_separate_sample : Plain "a" ∧ Plain "a:b" ∧
    (ofList [⟨"c", "a", 1, [], [], []⟩, ⟨"c", "a:b", 2, [], [], []⟩]).get? "a" "c" none =
      (ofList [⟨"c", "a", 1, [], [], []⟩]).get? "a" "c" none := by
  refine ⟨by decide, by decide, ?_⟩
  exact (((domains_separate [⟨"c", "a", 1, [], [], []⟩, ⟨"c", "a:b", 2, [], [], []⟩] "a").2.2 (by decide) (by decide)).1
    "c" none).symm

/-- An operator whose name has the separator in it is found and listed in a domain in which nothing was registered. -/
theorem domains_overlap : (∀ s ∈ [OpSchema.mk "b::c" "a" 1 [] [] []], s.domain ≠ "a::b") ∧
    (ofList [⟨"b::c", "a", 1, [], [], []⟩]).get? "a::b" "c" none = some ⟨"b::c", "a", 1, [], [], []⟩ ∧
    "c" ∈ (ofList [⟨"b::c", "a", 1, [], [], []⟩]).names "a::b" := by
  refine ⟨by decide, rfl, ?_⟩
  rw [(names_perm _ _).mem_iff]
  decide

end Registry

end OpGraph
