import OpGraph.Proofs.Document.Content

/-!
Canonical and readable texts agree. The canonical text of a document does not depend on the order of its members, at any
depth, and not on undefined ones; and both texts are read as the same JSON value, the content of the document.
-/

namespace OpGraph

open List

namespace Document

/-! ### Rearrangements -/

/-- One change that does not count: the members of an object in another order, or one more undefined member, at any
depth. -/
inductive Rearranges : Document → Document → Prop
  | permute {ms ns : List (String × Document)} (h : ms.Perm ns) : Rearranges (object ms) (object ns)
  | extend (key : String) (ms : List (String × Document)) : Rearranges (object ms) (object ((key, undefined) :: ms))
  | item {d d' : Document} (h : Rearranges d d') (before after : List Document) :
    Rearranges (array (before ++ d :: after)) (array (before ++ d' :: after))
  | member {d d' : Document} (h : Rearranges d d') (key : String) (before after : List (String × Document)) :
    Rearranges (object (before ++ (key, d) :: after)) (object (before ++ (key, d') :: after))

section Rearranging

variable {d d' : Document}

theorem Rearranges.isUndefined (h : Rearranges d d') : d.isUndefined = false ∧ d'.isUndefined = false := by
  cases h <;> exact ⟨rfl, rfl⟩

theorem defined_append (ms ns : List (String × Document)) : defined (ms ++ ns) = defined ms ++ defined ns :=
  filter_append ..

theorem defined_cons {key : String} (h : d.isUndefined = false) (ms : List (String × Document)) :
    defined ((key, d) :: ms) = (key, d) :: defined ms :=
  filter_cons_of_pos (by simp [h])

theorem Rearranges.isDistinct (h : Rearranges d d') (hd : d.isDistinct = true) : d'.isDistinct = true := by
  induction h with
  | permute h =>
    obtain ⟨hnodup, hmembers⟩ := isDistinct_object.1 hd
    refine isDistinct_object.2 ⟨?_, fun m hm => hmembers m (h.symm.subset hm)⟩
    exact (((h.filter _).map _).nodup_iff).1 hnodup
  | extend key ms =>
    obtain ⟨hnodup, hmembers⟩ := isDistinct_object.1 hd
    exact isDistinct_object.2 ⟨hnodup, forall_mem_cons.2 ⟨rfl, hmembers⟩⟩
  | item h before after ih =>
    rw [isDistinct_array, forall_mem_append, forall_mem_cons] at hd ⊢
    exact ⟨hd.1, ih hd.2.1, hd.2.2⟩
  | member h key before after ih =>
    rw [isDistinct_object, forall_mem_append, forall_mem_cons, defined_append, defined_cons h.isUndefined.1] at hd
    rw [isDistinct_object, forall_mem_append, forall_mem_cons, defined_append, defined_cons h.isUndefined.2]
    rw [map_append, map_cons] at hd ⊢
    exact ⟨hd.1, hd.2.1, ih hd.2.2.1, hd.2.2.2⟩

theorem canonical_of_rearranges (h : Rearranges d d') (hd : d.isDistinct = true) : d'.canonical = d.canonical := by
  induction h with
  | @permute ms ns h =>
    obtain ⟨hnodup, -⟩ := isDistinct_object.1 hd
    have hunits : ((defined ms).map fun m => Text.units m.1).Nodup := by
      refine List.Nodup.of_map (fun us => String.ofList (Text.ofUnits us)) ?_
      rw [map_map]
      exact hnodup
    have hsorted : Text.sortBy (·.1) (defined ms) = Text.sortBy (·.1) (defined ns) :=
      Text.sortBy_eq_of_perm (h.filter _) hunits
    rw [canonical_object, canonical_object, hsorted]
  | extend key ms => rfl
  | item h before after ih =>
    rw [isDistinct_array, forall_mem_append, forall_mem_cons] at hd
    rw [canonical, canonical, canonicalItems_eq, canonicalItems_eq, mapM_append, mapM_append, mapM_cons, mapM_cons,
      ih hd.2.1]
  | member h key before after ih =>
    rw [isDistinct_object, forall_mem_append, forall_mem_cons] at hd
    rw [canonical, canonical, canonicalMembers_eq, canonicalMembers_eq, defined_append, defined_append,
      defined_cons h.isUndefined.1, defined_cons h.isUndefined.2, map_append, map_append, map_cons,
      map_cons, ih hd.2.2.1]

end Rearranging

/-- **Rearranged documents have one canonical text, and canonical and readable texts agree.** Members in another order
and undefined members, at any depth and any number of them, do not change the canonical text; and the canonical text of
a document and its readable text, with any indentation, are read as the same JSON value, its content. -/
theorem texts_agree {d : Document} (hd : d.isDistinct = true) :
    (∀ d', Relation.ReflTransGen Rearranges d d' → d'.canonical = d.canonical) ∧
    (d.isFinite = true → d.isUndefined = false → ∀ indent, ∃ text text' j j', d.canonical = .ok text ∧
      d.readable indent = some text' ∧ Json.read? text = some j ∧ Json.read? text' = some j' ∧ j.Same j' ∧
      j' = d.content) := by
  refine ⟨fun d' h => ?_, fun hfinite hdefined indent => ?_⟩
  · have hsteps : d'.isDistinct = true ∧ d'.canonical = d.canonical := by
      induction h with
      | refl => exact ⟨hd, rfl⟩
      | tail _ hstep ih => exact ⟨hstep.isDistinct ih.1, (canonical_of_rearranges hstep ih.1).trans ih.2⟩
    exact hsteps.2
  · obtain ⟨j, hreads, hsame⟩ := reads_render_tree hfinite hd
    have hblank : ∀ c ∈ List.replicate (min indent 10) ' ', Json.isBlank c = true := by
      intro c hc
      rw [List.eq_of_mem_replicate hc]
      rfl
    have hreadable := reads_itemText _ [] hblank (List.forall_mem_nil _) hfinite
    refine ⟨_, _, j, d.content, canonical_of_isFinite hfinite, render_of_defined _ [] hdefined, ?_,
      Json.read?_of_reads hreadable, hsame, rfl⟩
    exact Json.read?_of_reads (by rwa [String.toList_ofList])

/-- An object with a negative zero, an undefined item, an integer of any size and an object inside. -/
def nested : Document :=
  object [("b", array [number (Float.ofBits 0x8000000000000000), undefined, int 12345678901234567890]),
    ("a", object [("z", bool true), ("y", str "\n")])]

/-- The same object, rearranged inside and outside and with undefined members. -/
def rearranged : Document :=
  object [("c", undefined), ("a", object [("x", undefined), ("y", str "\n"), ("z", bool true)]),
    ("b", array [number (Float.ofBits 0x8000000000000000), undefined, int 12345678901234567890])]

theorem texts_agree_nested : nested.isDistinct = true ∧ nested.isFinite = true ∧ nested.isUndefined = false ∧
    Relation.ReflTransGen Rearranges nested rearranged ∧ rearranged.canonical = nested.canonical ∧
    ∃ text text' j j', nested.canonical = .ok text ∧ nested.readable 2 = some text' ∧ Json.read? text = some j ∧
      Json.read? text' = some j' ∧ j.Same j' ∧ j' = nested.content := by
  have hdistinct : nested.isDistinct = true := by decide +kernel
  have hfinite : nested.isFinite = true := by
    have hzero : (Float.ofBits 0x8000000000000000).isFinite = true := by
      rw [Binary64.isFinite_iff, Binary64.toBits_ofBits (by decide)]
      decide
    simp [nested, isFinite, isFiniteMembers, isFiniteItems, hzero]
  have hrearranged : Relation.ReflTransGen Rearranges nested rearranged := by
    have hinside : Rearranges (object [("z", bool true), ("y", str "\n")]) (object [("y", str "\n"), ("z", bool true)]) :=
      .permute (.swap _ _ _)
    have hmember := Rearranges.extend "x" [("y", str "\n"), ("z", bool true)]
    exact .tail (.tail (.tail (.single (.member hinside "a" [_] [])) (.member hmember "a" [_] []))
      (.permute (.swap _ _ _))) (.extend "c" _)
  exact ⟨hdistinct, hfinite, rfl, hrearranged, (texts_agree hdistinct).1 _ hrearranged,
    (texts_agree hdistinct).2 hfinite rfl 2⟩

end Document

end OpGraph
