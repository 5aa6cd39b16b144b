/-!
Sets of names in the order in which the names were first added.
-/

namespace OpGraph

structure NameSet where
  toList : List String := []
  nodup : toList.Nodup := by simp

namespace NameSet

instance : Inhabited NameSet := ⟨{}⟩

instance : EmptyCollection NameSet := ⟨{}⟩

instance : Membership String NameSet := ⟨fun s x => x ∈ s.toList⟩

theorem mem_toList {s : NameSet} {x : String} : x ∈ s ↔ x ∈ s.toList :=
  Iff.rfl

instance (x : String) (s : NameSet) : Decidable (x ∈ s) :=
  inferInstanceAs (Decidable (x ∈ s.toList))

def insert (s : NameSet) (x : String) : NameSet :=
  if h : x ∈ s.toList then s
  else ⟨s.toList ++ [x], by
    refine List.nodup_append.2 ⟨s.nodup, by simp, ?_⟩
    intro a ha b hb
    rw [List.mem_singleton] at hb
    intro hab
    exact h (hb ▸ hab ▸ ha)⟩

def insertAll (s : NameSet) (xs : List String) : NameSet :=
  xs.foldl insert s

def ofList (xs : List String) : NameSet :=
  insertAll ∅ xs

def union (s t : NameSet) : NameSet :=
  s.insertAll t.toList

def diff (s t : NameSet) : NameSet :=
  ⟨s.toList.filter (· ∉ t), s.nodup.sublist List.filter_sublist⟩

def same (s t : NameSet) : Bool :=
  s.toList.length == t.toList.length && s.toList.all (· ∈ t)

theorem mem_insert {s : NameSet} {x y : String} : y ∈ s.insert x ↔ y ∈ s ∨ y = x := by
  unfold insert
  split
  · rename_i h
    constructor
    · exact Or.inl
    · rintro (hy | rfl)
      · exact hy
      · exact h
  · simp [mem_toList]

theorem mem_insertAll {s : NameSet} {xs : List String} {y : String} : y ∈ s.insertAll xs ↔ y ∈ s ∨ y ∈ xs := by
  induction xs generalizing s with
  | nil => simp [insertAll]
  | cons x xs ih =>
    have h : s.insertAll (x :: xs) = (s.insert x).insertAll xs := rfl
    rw [h, ih, mem_insert, List.mem_cons, or_assoc]

theorem mem_union {s t : NameSet} {y : String} : y ∈ s.union t ↔ y ∈ s ∨ y ∈ t :=
  mem_insertAll

theorem mem_diff {s t : NameSet} {y : String} : y ∈ s.diff t ↔ y ∈ s ∧ y ∉ t := by
  simp [diff, mem_toList]

end NameSet

end OpGraph
