import Mathlib
import OpGraph.Text.Units

/-!
Sorting by the UTF-16 units of keys. It rearranges a list so that the keys ascend, and if they differ there is one way.
-/

namespace OpGraph.Text

variable {α : Type} (key : α → String) (xs : List α)

theorem perm_sortBy : (sortBy key xs).Perm xs :=
  List.mergeSort_perm _ _

theorem pairwise_sortBy : (sortBy key xs).Pairwise fun a b => units (key a) ≤ units (key b) := by
  refine (List.pairwise_mergeSort ?_ ?_ xs).imp ?_ <;> simp only [before]
  · intro a b c
    simpa using le_trans
  · intro a b
    simpa using le_total _ _
  · intro a b
    simp

theorem sortBy_eq_of_perm {key : α → String} {xs ys : List α} (h : xs.Perm ys)
    (hnodup : (xs.map fun x => units (key x)).Nodup) : sortBy key xs = sortBy key ys := by
  have hxs := perm_sortBy key xs
  have hys := perm_sortBy key ys
  refine List.Perm.eq_of_pairwise (fun a b ha hb hab hba => ?_) (pairwise_sortBy key xs) (pairwise_sortBy key ys)
    (hxs.trans (h.trans hys.symm))
  exact List.inj_on_of_nodup_map hnodup (hxs.subset ha) (h.symm.subset (hys.subset hb)) (le_antisymm hab hba)

theorem sortBy_map {β : Type} (f : α → β) (ms : List (String × α)) :
    sortBy (·.1) (ms.map fun m => (m.1, f m.2)) = (sortBy (·.1) ms).map fun m => (m.1, f m.2) := by
  unfold sortBy
  rw [List.map_mergeSort]
  intro _ _ _ _
  rfl

end OpGraph.Text
