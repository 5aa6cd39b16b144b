import Mathlib
import OpGraph.Names

/-!
The supply of names: what `generate` gives is not taken yet and is taken afterwards. A number is always found, because
the numbered candidates are different names and there are more of them than names that are taken.
-/

namespace OpGraph.Names

open List

theorem numbered_injective (candidate : String) : Function.Injective (numbered candidate) := by
  intro j k h
  unfold numbered at h
  have hd : toString j = toString k := by
    have := congrArg String.toList h
    simp only [String.toList_append, append_cancel_left_eq] at this
    exact String.toList_inj.1 this
  exact Nat.repr_inj.1 hd

theorem mem_of_freeNumber_mem {used : List String} {candidate : String} {tries k : ℕ}
    (h : numbered candidate (freeNumber used candidate tries k) ∈ used) :
    ∀ i ≤ tries, numbered candidate (k + i) ∈ used := by
  induction tries generalizing k with
  | zero =>
    intro i hi
    obtain rfl : i = 0 := by omega
    simpa [freeNumber] using h
  | succ tries ih =>
    intro i hi
    rw [freeNumber] at h
    split at h
    · rename_i hk
      rcases i with _ | i
      · simpa using hk
      · have := ih h i (by omega)
        rwa [show k + 1 + i = k + (i + 1) by omega] at this
    · rename_i hk
      exact absurd (elem_iff.2 h) hk

theorem numbered_freeNumber_notMem (used : List String) (candidate : String) (k : ℕ) :
    numbered candidate (freeNumber used candidate used.length k) ∉ used := by
  intro h
  have hall := mem_of_freeNumber_mem h
  set taken := (List.range (used.length + 1)).map fun i => numbered candidate (k + i) with htaken
  have hnodup : taken.Nodup := by
    refine List.Nodup.map ?_ nodup_range
    intro i j hij
    have := numbered_injective candidate hij
    omega
  have hsub : taken ⊆ used := by
    intro x hx
    obtain ⟨i, hi, rfl⟩ := mem_map.1 hx
    exact hall i (by have := mem_range.1 hi; omega)
  have hlen := (subperm_of_subset hnodup hsub).length_le
  simp [htaken] at hlen

theorem generate_notMem (ns : Names) (candidate : String) : (ns.generate candidate).1 ∉ ns.used := by
  unfold generate
  split
  · exact numbered_freeNumber_notMem ns.used candidate ns.counter
  · rename_i h
    exact fun hm => h (elem_iff.2 hm)

theorem used_generate (ns : Names) (candidate : String) :
    (ns.generate candidate).2.used = (ns.generate candidate).1 :: ns.used := by
  unfold generate
  split <;> rfl

theorem generate_ne_empty (ns : Names) {candidate : String} (h : candidate ≠ "") :
    (ns.generate candidate).1 ≠ "" := by
  unfold generate
  split
  · intro hn
    have := congrArg String.length hn
    simp [numbered] at this
  · exact h

theorem mem_reserve {ns : Names} {name x : String} : x ∈ (ns.reserve name).used ↔ x = name ∨ x ∈ ns.used := by
  unfold reserve
  split
  · rename_i h
    have hm : name ∈ ns.used := elem_iff.1 h
    constructor
    · exact Or.inr
    · rintro (rfl | hx)
      · exact hm
      · exact hx
  · simp

end OpGraph.Names
