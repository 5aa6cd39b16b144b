import OpGraph.Document.Canonical
import OpGraph.Proofs.Json.Rendering
import OpGraph.Proofs.Sorting

/-!
The JSON value that the canonical text of a document shows: members are sorted, undefined ones left out, integers of any
size are strings, and zeros have no sign. Two documents have the same canonical text if and only if they show the same
value.
-/

namespace OpGraph

open List

namespace Document

variable {d : Document} {ms ms' : List (String × Document)}

/-! ### The value of a document -/

mutual
/-- All numbers of a document are finite. -/
def isFinite : Document → Bool
  | count n => (Binary64.ofInt n).isFinite
  | number x => x.isFinite
  | array items => isFiniteItems items
  | object members => isFiniteMembers members
  | _ => true
def isFiniteItems : List Document → Bool
  | [] => true
  | d :: ds => d.isFinite && isFiniteItems ds
def isFiniteMembers : List (String × Document) → Bool
  | [] => true
  | (_, d) :: ms => d.isFinite && isFiniteMembers ms
end

mutual
/-- The JSON value that the canonical text shows. -/
def tree : Document → Json
  | null | undefined => .null
  | bool b => .bool b
  | int i => .string (toString i)
  | count n => .number (Binary64.unsigned (Binary64.ofInt n))
  | number x => .number (Binary64.unsigned x)
  | str s => .string s
  | array items => .array (treeItems items)
  | object members => .object (Text.sortBy (·.1) (treeMembers members))
def treeItems : List Document → List Json
  | [] => []
  | d :: ds => d.tree :: treeItems ds
def treeMembers : List (String × Document) → List (String × Json)
  | [] => []
  | (key, d) :: ms => if d.isUndefined then treeMembers ms else (key, d.tree) :: treeMembers ms
end

/-- The members that are written. -/
def defined (ms : List (String × Document)) : List (String × Document) :=
  ms.filter fun m => !m.2.isUndefined

theorem isFiniteItems_iff {ds : List Document} : isFiniteItems ds = true ↔ ∀ d ∈ ds, d.isFinite = true := by
  induction ds with
  | nil => simp [isFiniteItems]
  | cons d ds ih => simp [isFiniteItems, ih]

theorem isFiniteMembers_iff : isFiniteMembers ms = true ↔ ∀ m ∈ ms, m.2.isFinite = true := by
  induction ms with
  | nil => simp [isFiniteMembers]
  | cons m ms ih => simp [isFiniteMembers, ih]

theorem treeItems_eq (ds : List Document) : treeItems ds = ds.map tree := by
  induction ds with
  | nil => rfl
  | cons d ds ih => rw [treeItems, ih, map_cons]

theorem treeMembers_eq (ms : List (String × Document)) :
    treeMembers ms = (defined ms).map fun m => (m.1, m.2.tree) := by
  induction ms with
  | nil => rfl
  | cons m ms ih =>
    rw [treeMembers, ih, defined, defined, filter_cons]
    cases m.2.isUndefined <;> rfl

theorem canonicalMembers_eq (ms : List (String × Document)) :
    canonicalMembers ms = (defined ms).map fun m => (m.1, m.2.canonical) := by
  induction ms with
  | nil => rfl
  | cons m ms ih =>
    rw [canonicalMembers, ih, defined, defined, filter_cons]
    cases m.2.isUndefined <;> rfl

theorem inside_induction {P : Document → Prop} (null : P null) (undefined : P undefined) (bool : ∀ b, P (bool b))
    (int : ∀ i, P (int i)) (count : ∀ n, P (count n)) (number : ∀ x, P (number x)) (str : ∀ s, P (str s))
    (array : ∀ items, (∀ d ∈ items, P d) → P (array items))
    (object : ∀ ms : List (String × Document), (∀ m ∈ ms, P m.2) → P (object ms)) (d : Document) : P d :=
  match d with
  | .null => null
  | .undefined => undefined
  | .bool b => bool b
  | .int i => int i
  | .count n => count n
  | .number x => number x
  | .str s => str s
  | .array items => array items fun d hd =>
    have := sizeOf_lt_of_mem hd
    inside_induction null undefined bool int count number str array object d
  | .object ms => object ms fun m hm =>
    have h := sizeOf_lt_of_mem hm
    have : sizeOf m.2 < sizeOf m := by cases m; simp
    inside_induction null undefined bool int count number str array object m.2
termination_by sizeOf d

/-! ### Successful lists -/

section Lists

variable {α β ε : Type} {f : α → Except ε β}

theorem mapM_of_ok {g : α → β} {xs : List α} (h : ∀ x ∈ xs, f x = .ok (g x)) : xs.mapM f = .ok (xs.map g) := by
  induction xs with
  | nil => rfl
  | cons x xs ih =>
    rw [mapM_cons, h x mem_cons_self, ih fun y hy => h y (mem_cons_of_mem _ hy)]
    rfl

theorem ok_of_mapM {xs : List α} {ys : List β} (h : xs.mapM f = .ok ys) : ∀ x ∈ xs, ∃ y, f x = .ok y := by
  induction xs generalizing ys with
  | nil => simp
  | cons x xs ih =>
    rw [mapM_cons] at h
    obtain ⟨y, hx, h⟩ := bind_eq_ok.1 h
    obtain ⟨ys, hxs, -⟩ := bind_eq_ok.1 h
    exact forall_mem_cons.2 ⟨⟨y, hx⟩, ih hxs⟩

end Lists

theorem canonicalItems_eq (ds : List Document) : canonicalItems ds = ds.mapM canonical := by
  induction ds with
  | nil => rfl
  | cons d ds ih =>
    rw [canonicalItems, ih, mapM_cons]

/-! ### The canonical text -/

theorem mem_sortBy_defined {m : String × Document} :
    m ∈ Text.sortBy (·.1) (defined ms) ↔ m ∈ ms ∧ m.2.isUndefined = false := by
  rw [(Text.perm_sortBy _ _).mem_iff, defined, mem_filter, Bool.not_eq_true']

def canonicalMember (m : String × Document) : Except Error String := do
  return Text.quote m.1 ++ ":" ++ (← m.2.canonical)

theorem canonical_object (ms : List (String × Document)) : (object ms).canonical = (do
    let texts ← (Text.sortBy (·.1) (defined ms)).mapM canonicalMember
    return "\x7b" ++ ",".intercalate texts ++ "\x7d") := by
  rw [canonical, canonicalMembers_eq, Text.sortBy_map, mapM_map]
  rfl

theorem render_array (items : List Document) : (array items).tree.render =
    '[' :: ([','].intercalate (items.map fun d => d.tree.render) ++ [']']) := by
  rw [tree, treeItems_eq, Json.render, Json.renderItems_eq, map_map]
  rfl

theorem render_object (ms : List (String × Document)) : (object ms).tree.render =
    '\x7b' :: ([','].intercalate ((Text.sortBy (·.1) (defined ms)).map fun m => Json.renderMember (m.1, m.2.tree)) ++
      ['\x7d']) := by
  rw [tree, treeMembers_eq, Text.sortBy_map, Json.render, Json.renderMembers_eq, map_map]
  rfl

theorem canonical_of_isFinite (h : d.isFinite = true) : d.canonical = .ok (String.ofList d.tree.render) := by
  have hnumber : ∀ {x : Float}, x.isFinite = true →
      canonicalNumber x = .ok (String.ofList (number x).tree.render) := by
    intro x hx
    rw [canonicalNumber, if_pos hx, tree, Json.render, Shortest.text_unsigned, String.ofList_toList]
  induction d using inside_induction with
  | null => rfl
  | undefined => rfl
  | bool b => cases b <;> rfl
  | int i | str s => rw [canonical, tree, Json.render, String.ofList_toList]
  | count n => exact hnumber h
  | number x => exact hnumber h
  | array items ih =>
    have hitems := isFiniteItems_iff.1 h
    rw [canonical, canonicalItems_eq, mapM_of_ok fun d hd => ih d hd (hitems d hd), render_array]
    refine congrArg Except.ok (String.toList_inj.1 ?_)
    simp [String.toList_intercalate, Function.comp_def]
  | object ms ih =>
    have hms := isFiniteMembers_iff.1 h
    have hmember : ∀ m ∈ Text.sortBy (·.1) (defined ms), canonicalMember m =
        .ok (String.ofList (Json.renderMember (m.1, m.2.tree))) := by
      intro m hm
      have hmem := (mem_sortBy_defined.1 hm).1
      rw [canonicalMember, ih m hmem (hms m hmem)]
      refine congrArg Except.ok (String.toList_inj.1 ?_)
      simp [Json.renderMember]
    rw [canonical_object, mapM_of_ok hmember, render_object]
    refine congrArg Except.ok (String.toList_inj.1 ?_)
    simp [String.toList_intercalate, Function.comp_def]

theorem isFinite_of_canonical {s : String} (h : d.canonical = .ok s) : d.isFinite = true := by
  have hnumber : ∀ {x : Float} {s}, canonicalNumber x = .ok s → x.isFinite = true := by
    intro x s h
    by_contra hx
    rw [canonicalNumber, if_neg hx] at h
    cases h
  induction d using inside_induction generalizing s with
  | count n => exact hnumber h
  | number x => exact hnumber h
  | null | undefined | bool _ | int _ | str _ => rfl
  | array items ih =>
    rw [canonical, canonicalItems_eq] at h
    rw [isFinite, isFiniteItems_iff]
    intro d hd
    obtain ⟨ts, hitems, -⟩ := bind_eq_ok.1 h
    obtain ⟨t, ht⟩ := ok_of_mapM hitems d hd
    exact ih d hd ht
  | object ms ih =>
    rw [canonical_object] at h
    rw [isFinite, isFiniteMembers_iff]
    intro m hm
    by_cases hu : m.2.isUndefined = true
    · cases hd : m.2 <;> rw [hd] at hu <;> first | rfl | cases hu
    · obtain ⟨ts, htexts, -⟩ := bind_eq_ok.1 h
      obtain ⟨t, ht⟩ := ok_of_mapM htexts m (mem_sortBy_defined.2 ⟨hm, Bool.eq_false_of_not_eq_true hu⟩)
      obtain ⟨s, hd, -⟩ := bind_eq_ok.1 ht
      exact ih m hm hd

theorem plain_tree (h : d.isFinite = true) : d.tree.Plain := by
  induction d using inside_induction with
  | null => exact .null
  | undefined => exact .null
  | bool b => exact .bool b
  | int i => exact .string _
  | count n => exact .number (Binary64.isFinite_unsigned h) (Binary64.unsigned_unsigned _)
  | number x => exact .number (Binary64.isFinite_unsigned h) (Binary64.unsigned_unsigned _)
  | str s => exact .string s
  | array items ih =>
    have hitems := isFiniteItems_iff.1 h
    rw [tree, treeItems_eq]
    exact .array (forall_mem_map.2 fun d hd => ih d hd (hitems d hd))
  | object ms ih =>
    have hms := isFiniteMembers_iff.1 h
    rw [tree, treeMembers_eq, Text.sortBy_map]
    refine .object (forall_mem_map.2 fun m hm => ?_)
    have hmem := (mem_sortBy_defined.1 hm).1
    exact ih m hmem (hms m hmem)

/-- **Two documents have the same canonical text if and only if they show the same value.** -/
theorem canonical_eq_iff {d' : Document} {s s' : String} (h : d.canonical = .ok s) (h' : d'.canonical = .ok s') :
    s = s' ↔ d.tree = d'.tree := by
  have hfinite := isFinite_of_canonical h
  have hfinite' := isFinite_of_canonical h'
  rw [canonical_of_isFinite hfinite] at h
  rw [canonical_of_isFinite hfinite'] at h'
  cases h
  cases h'
  constructor
  · intro heq
    have hrender := congrArg String.toList heq
    rw [String.toList_ofList, String.toList_ofList] at hrender
    exact (Json.separates_render (plain_tree hfinite) (plain_tree hfinite') [] [] .nil .nil (by rw [hrender])).1
  · intro heq
    rw [heq]

/-! ### Members -/

theorem members_of_perm {α : Type} {fixed fixed' rest rest' : List (String × α)}
    (hkeys : fixed.map (·.1) = fixed'.map (·.1)) (hnodup : ((fixed' ++ rest').map (·.1)).Nodup)
    (h : (fixed ++ rest).Perm (fixed' ++ rest')) : fixed = fixed' ∧ rest.Perm rest' := by
  induction fixed generalizing fixed' with
  | nil =>
    obtain rfl := map_eq_nil_iff.1 hkeys.symm
    exact ⟨rfl, h⟩
  | cons m fixed ih =>
    cases fixed' with
    | nil => cases hkeys
    | cons n fixed' =>
      obtain ⟨hkey, htail⟩ := List.cons.inj hkeys
      obtain ⟨hnotin, hrest⟩ := nodup_cons.1 hnodup
      have hmem : m ∈ n :: (fixed' ++ rest') := h.subset mem_cons_self
      rcases mem_cons.1 hmem with rfl | hmem
      · obtain ⟨rfl, hperm⟩ := ih htail hrest h.cons_inv
        exact ⟨rfl, hperm⟩
      · exact absurd (hkey ▸ mem_map_of_mem hmem) hnotin

theorem perm_of_tree (h : (object ms).tree = (object ms').tree) : (treeMembers ms).Perm (treeMembers ms') := by
  rw [tree, tree, Json.object.injEq] at h
  have hperm := Text.perm_sortBy (·.1) (treeMembers ms)
  rw [h] at hperm
  exact hperm.symm.trans (Text.perm_sortBy _ _)

def keys (ms : List (String × Document)) : List String :=
  (treeMembers ms).map (·.1)

section Defined

variable {key : String}

@[simp] theorem isUndefined_int (i : ℤ) : (int i).isUndefined = false := by rfl
@[simp] theorem isUndefined_count (n : ℤ) : (count n).isUndefined = false := by rfl
@[simp] theorem isUndefined_number (x : Float) : (number x).isUndefined = false := by rfl
@[simp] theorem isUndefined_str (s : String) : (str s).isUndefined = false := by rfl
@[simp] theorem isUndefined_strings (xs : List String) : (strings xs).isUndefined = false := by rfl
@[simp] theorem isUndefined_array (items : List Document) : (array items).isUndefined = false := by rfl
@[simp] theorem isUndefined_object (ms : List (String × Document)) : (object ms).isUndefined = false := by rfl

theorem treeMembers_cons (h : d.isUndefined = false) : treeMembers ((key, d) :: ms) = (key, d.tree) :: treeMembers ms := by
  rw [treeMembers, h, if_neg Bool.false_ne_true]

@[simp] theorem keys_nil : keys [] = [] := rfl

@[simp] theorem keys_cons (h : d.isUndefined = false) : keys ((key, d) :: ms) = key :: keys ms := by
  rw [keys, treeMembers_cons h, map_cons, keys]

end Defined

theorem value_of_tree (h : (object ms).tree = (object ms').tree) (hnodup : (keys ms').Nodup) {key : String}
    {v v' : Json} (hv : (key, v) ∈ treeMembers ms) (hv' : (key, v') ∈ treeMembers ms') : v = v' := by
  have hmem := (perm_of_tree h).subset hv
  exact congrArg Prod.snd (inj_on_of_nodup_map hnodup hmem hv' rfl)

theorem treeMembers_append (ms ns : List (String × Document)) :
    treeMembers (ms ++ ns) = treeMembers ms ++ treeMembers ns := by
  rw [treeMembers_eq, treeMembers_eq, treeMembers_eq, defined, filter_append, map_append]
  rfl

/-- Members show the same values one by one. -/
def SameValues : List (String × Document) → List (String × Document) → Prop
  | (_, d) :: ms, (_, d') :: ms' => d.tree = d'.tree ∧ SameValues ms ms'
  | _, _ => True

theorem sameValues (hdef : ∀ m ∈ ms ++ ms', m.2.isUndefined = false) (h : treeMembers ms = treeMembers ms') :
    SameValues ms ms' := by
  fun_induction SameValues ms ms' with
  | case1 key d ms key' d' ms' ih =>
    rw [treeMembers_cons (hdef (key, d) (by simp)), treeMembers_cons (hdef (key', d') (by simp))] at h
    obtain ⟨hmember, htail⟩ := List.cons.inj h
    exact ⟨(Prod.mk.inj hmember).2, ih (fun m hm => hdef m (by grind)) htail⟩
  | case2 => trivial

/-- Objects that show the same value agree member by member: on the members that both have, and on one more. -/
theorem members_of_tree {ns ns' : List (String × Document)} (h : (object (ms ++ ns)).tree = (object (ms' ++ ns')).tree)
    (hkeys : keys ms = keys ms') (hdef : ∀ m ∈ ms ++ ms', m.2.isUndefined = false)
    (hnodup : (keys (ms' ++ ns')).Nodup) (hrest : ns.length ≤ 1) :
    SameValues ms ms' ∧ treeMembers ns = treeMembers ns' := by
  have hperm := perm_of_tree h
  rw [keys, treeMembers_append] at hnodup
  rw [treeMembers_append, treeMembers_append] at hperm
  obtain ⟨hfixed, hperm⟩ := members_of_perm hkeys hnodup hperm
  refine ⟨sameValues hdef hfixed, ?_⟩
  match ns, hrest with
  | [], _ => exact (perm_nil.1 hperm.symm).symm
  | [n], _ =>
    rw [treeMembers, treeMembers] at hperm ⊢
    split at hperm <;> rename_i hu <;> simp only [hu, if_true, if_false, Bool.false_eq_true] at hperm ⊢
    · exact (perm_nil.1 hperm.symm).symm
    · exact (perm_singleton.1 hperm.symm).symm

theorem fixed_of_tree (h : (object ms).tree = (object ms').tree) (hkeys : keys ms = keys ms')
    (hdef : ∀ m ∈ ms ++ ms', m.2.isUndefined = false) (hnodup : (keys ms').Nodup) : SameValues ms ms' := by
  rw [← append_nil ms, ← append_nil ms'] at h
  exact (members_of_tree h hkeys hdef (by rwa [append_nil]) (Nat.zero_le 1)).1

end Document

end OpGraph
