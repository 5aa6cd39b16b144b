/-!
Order of the members of an object. Keys that are array indices come first, in ascending order; the others follow in the
order in which they were first given. A repeated key keeps its place and takes the last value.
-/

namespace OpGraph.Members

variable {α : Type}

def get? (ms : List (String × α)) (key : String) : Option α :=
  (ms.find? (·.1 == key)).map (·.2)

/-- Sets the value of a key, at its old place if it has one and at the end otherwise. -/
def set : List (String × α) → String → α → List (String × α)
  | [], key, v => [(key, v)]
  | (k, w) :: ms, key, v => if k = key then (k, v) :: ms else (k, w) :: set ms key v

/-- The array index that a key spells, if it does: a decimal below `2^32 - 1` without leading zeros. -/
def index? (key : String) : Option Nat :=
  match key.toList with
  | ['0'] => some 0
  | c :: cs =>
    if c ≠ '0' ∧ c.isDigit ∧ cs.all Char.isDigit then
      let n := (c :: cs).foldl (fun n d => 10 * n + (d.toNat - 48)) 0
      if n < 0xffffffff then some n else none
    else none
  | [] => none

/-- Members of an object given one after the other, in the order in which they are listed. -/
def ofList (entries : List (String × α)) : List (String × α) :=
  let ms := entries.foldl (fun ms (k, v) => set ms k v) []
  let indexed := ms.filterMap fun m => (index? m.1).map fun i => (i, m)
  (indexed.mergeSort fun a b => a.1 ≤ b.1).map (·.2) ++ ms.filter fun m => (index? m.1).isNone

theorem get?_set (ms : List (String × α)) (key other : String) (v : α) :
    get? (set ms key v) other = if key = other then some v else get? ms other := by
  induction ms with
  | nil => by_cases h : key = other <;> simp [set, get?, h]
  | cons m ms ih =>
    obtain ⟨k, w⟩ := m
    by_cases hk : k = key
    · subst hk
      by_cases ho : k = other <;> simp [set, get?, ho]
    · by_cases ho : k = other
      · subst ho
        simp [set, get?, hk, Ne.symm hk]
      · simpa [set, get?, hk, ho] using ih

theorem mem_of_get? {ms : List (String × α)} {key : String} {v : α} (h : get? ms key = some v) : (key, v) ∈ ms := by
  obtain ⟨m, hm, rfl⟩ := Option.map_eq_some_iff.1 h
  obtain rfl : m.1 = key := by simpa using List.find?_some hm
  exact List.mem_of_find?_eq_some hm

theorem mem_of_mem_set {ms : List (String × α)} {key : String} {v : α} {m : String × α} (h : m ∈ set ms key v) :
    m ∈ ms ∨ m.2 = v ∧ m.1 = key := by
  induction ms with
  | nil =>
    obtain rfl := List.mem_singleton.1 h
    exact .inr ⟨rfl, rfl⟩
  | cons n ms ih =>
    obtain ⟨k, w⟩ := n
    rw [set] at h
    split at h
    · rename_i hk
      rcases List.mem_cons.1 h with rfl | h
      · exact .inr ⟨rfl, hk⟩
      · exact .inl (List.mem_cons_of_mem _ h)
    · rcases List.mem_cons.1 h with rfl | h
      · exact .inl List.mem_cons_self
      · exact (ih h).imp_left (List.mem_cons_of_mem _)

theorem mem_of_foldl_set {m : String × α} {ks ms : List (String × α)}
    (h : m ∈ ks.foldl (fun ks k => set ks k.1 k.2) ms) : m ∈ ks ∨ m ∈ ms := by
  induction ks generalizing ms with
  | nil => exact .inr h
  | cons k ks ih =>
    rcases ih h with h | h
    · exact .inl (List.mem_cons_of_mem _ h)
    · rcases mem_of_mem_set h with h | ⟨h2, h1⟩
      · exact .inr h
      · exact .inl (by rw [show m = k from Prod.ext h1 h2]; exact List.mem_cons_self)

end OpGraph.Members
