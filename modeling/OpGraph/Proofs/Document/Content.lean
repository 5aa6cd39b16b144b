import OpGraph.Document.Readable
import OpGraph.Proofs.Document.Tree
import OpGraph.Proofs.Json.Reading

/-!
The JSON value that a document stands for. It is read from the readable text, whatever the indentation; what is read
from the canonical text is the same value, with the members of its objects in another order.
-/

namespace OpGraph

open List

namespace Json

/-- The same value, up to the order of the members of its objects. -/
inductive Same : Json → Json → Prop
  | null : Same null null
  | bool (b : Bool) : Same (bool b) (bool b)
  | number (x : Float) : Same (number x) (number x)
  | string (s : String) : Same (string s) (string s)
  | array (items : List (Json × Json)) (h : ∀ p ∈ items, Same p.1 p.2) :
    Same (array (items.map (·.1))) (array (items.map (·.2)))
  | object {ms ns : List (String × Json)} (members : List (String × Json × Json))
    (h : ∀ m ∈ members, Same m.2.1 m.2.2) (hms : ms.Perm (members.map fun m => (m.1, m.2.1)))
    (hns : ns.Perm (members.map fun m => (m.1, m.2.2))) : Same (object ms) (object ns)

theorem intercalate_after (pre post : List Char) (close : Char) (cs : List Char) (texts : List (List Char)) :
    (',' :: pre).intercalate (cs :: texts) ++ (post ++ [close]) = cs ++ after pre post close texts := by
  induction texts generalizing cs with
  | nil => simp [after]
  | cons cs' texts ih =>
    rw [intercalate_cons_cons, append_assoc, append_assoc, ih, after, cons_append]

theorem enclosed_cons (opening close : Char) (pre post cs : List Char) (texts : List (List Char)) :
    enclosed opening close pre post (cs :: texts) =
      opening :: (pre ++ ((',' :: pre).intercalate (cs :: texts) ++ (post ++ [close]))) := by
  rw [enclosed, intercalate_after]

theorem enclosed_compact (opening close : Char) (texts : List (List Char)) :
    enclosed opening close [] [] texts = opening :: ([','].intercalate texts ++ [close]) := by
  cases texts with
  | nil => rfl
  | cons cs texts => exact enclosed_cons opening close [] [] cs texts

end Json

namespace Document

/-! ### Content -/

mutual
/-- The JSON value that a document stands for: undefined members are left out and undefined items are null, integers of
any size are strings, and zeros have no sign. -/
def content : Document → Json
  | null | undefined => .null
  | bool b => .bool b
  | int i => .string (toString i)
  | count n => .number (Binary64.unsigned (Binary64.ofInt n))
  | number x => .number (Binary64.unsigned x)
  | str s => .string (Text.paired s)
  | array items => .array (contentItems items)
  | object members => .object (Members.ofList (contentMembers members))
def contentItems : List Document → List Json
  | [] => []
  | d :: ds => d.content :: contentItems ds
def contentMembers : List (String × Document) → List (String × Json)
  | [] => []
  | (key, d) :: ms => if d.isUndefined then contentMembers ms else (Text.paired key, d.content) :: contentMembers ms
end

mutual
/-- The members of every object that are written have different keys, as they are read. -/
def isDistinct : Document → Bool
  | array items => isDistinctItems items
  | object members => decide ((defined members).map fun m => Text.paired m.1).Nodup && isDistinctMembers members
  | _ => true
def isDistinctItems : List Document → Bool
  | [] => true
  | d :: ds => d.isDistinct && isDistinctItems ds
def isDistinctMembers : List (String × Document) → Bool
  | [] => true
  | (_, d) :: ms => d.isDistinct && isDistinctMembers ms
end

theorem contentItems_eq (ds : List Document) : contentItems ds = ds.map content := by
  induction ds with
  | nil => rfl
  | cons d ds ih => rw [contentItems, ih, map_cons]

theorem contentMembers_eq (ms : List (String × Document)) :
    contentMembers ms = (defined ms).map fun m => (Text.paired m.1, m.2.content) := by
  induction ms with
  | nil => rfl
  | cons m ms ih =>
    rw [contentMembers, ih, defined, defined, filter_cons]
    cases m.2.isUndefined <;> rfl

theorem isDistinct_array {items : List Document} :
    (array items).isDistinct = true ↔ ∀ d ∈ items, d.isDistinct = true := by
  rw [isDistinct]
  induction items with
  | nil => simp [isDistinctItems]
  | cons d ds ih => simp [isDistinctItems, ih]

theorem isDistinct_object {ms : List (String × Document)} : (object ms).isDistinct = true ↔
    ((defined ms).map fun m => Text.paired m.1).Nodup ∧ ∀ m ∈ ms, m.2.isDistinct = true := by
  have hmembers : isDistinctMembers ms = true ↔ ∀ m ∈ ms, m.2.isDistinct = true := by
    induction ms with
    | nil => simp [isDistinctMembers]
    | cons m ms ih => simp [isDistinctMembers, ih]
  rw [isDistinct, Bool.and_eq_true, decide_eq_true_iff, hmembers]

theorem mem_defined {ms : List (String × Document)} {m : String × Document} :
    m ∈ defined ms ↔ m ∈ ms ∧ m.2.isUndefined = false := by
  rw [defined, mem_filter, Bool.not_eq_true']

theorem reads_int (i : ℤ) : Json.Reads (Text.quote (toString i)).toList (.string (toString i)) := by
  have hreads := Json.reads_string (toString i)
  rwa [Text.paired_toString] at hreads

/-! ### The readable text -/

section Readable

variable (step margin : List Char)

def itemText (d : Document) : String :=
  (d.render step margin).getD "null"

def memberText (m : String × Document) : String :=
  Text.quote m.1 ++ (if step.isEmpty then ":" else ": ") ++ m.2.itemText step margin

theorem render_of_defined {d : Document} (h : d.isUndefined = false) :
    d.render step margin = some (d.itemText step margin) := by
  cases d with
  | undefined => cases h
  | _ => rfl

theorem renderItems_eq (ds : List Document) : renderItems step margin ds = ds.map (itemText step margin) := by
  induction ds with
  | nil => rfl
  | cons d ds ih =>
    rw [renderItems, ih, map_cons]
    rfl

theorem renderMembers_eq (ms : List (String × Document)) :
    renderMembers step margin ms = (defined ms).map (memberText step margin) := by
  induction ms with
  | nil => rfl
  | cons m ms ih =>
    obtain ⟨key, d⟩ := m
    rw [renderMembers, ih, defined, defined, filter_cons]
    cases hd : d.isUndefined with
    | false =>
      rw [render_of_defined step margin hd]
      rfl
    | true =>
      cases d with
      | undefined => rfl
      | _ => cases hd

def indentation : List Char :=
  if step.isEmpty then [] else '\n' :: (margin ++ step)

def dedentation : List Char :=
  if step.isEmpty then [] else '\n' :: margin

theorem toList_enclose {opening closing : String} {o c : Char} (ho : opening.toList = [o]) (hc : closing.toList = [c])
    (parts : List String) : (enclose opening closing step margin parts).toList =
      Json.enclosed o c (indentation step margin) (dedentation step margin) (parts.map String.toList) := by
  cases parts with
  | nil => simp [enclose, Json.enclosed, ho, hc]
  | cons part parts =>
    rw [map_cons, Json.enclosed_cons, indentation, dedentation, enclose]
    by_cases hstep : step.isEmpty = true
    · simp [hstep, String.toList_intercalate, ho, hc]
    · simp [hstep, String.toList_intercalate, ho, hc]

section Blank

variable {step margin} (hstep : ∀ c ∈ step, Json.isBlank c = true) (hmargin : ∀ c ∈ margin, Json.isBlank c = true)

include hmargin in
theorem isBlank_dedentation : ∀ c ∈ dedentation step margin, Json.isBlank c = true := by
  unfold dedentation
  split
  · simp
  · rw [forall_mem_cons]
    exact ⟨rfl, hmargin⟩

include hstep hmargin

theorem isBlank_margin : ∀ c ∈ margin ++ step, Json.isBlank c = true :=
  forall_mem_append.2 ⟨hmargin, hstep⟩

theorem isBlank_indentation : ∀ c ∈ indentation step margin, Json.isBlank c = true := by
  unfold indentation
  split
  · simp
  · rw [forall_mem_cons]
    exact ⟨rfl, isBlank_margin hstep hmargin⟩

end Blank

theorem entry_memberText {m : String × Document} {j : Json} (h : Json.Reads (m.2.itemText step margin).toList j) :
    Json.Entry (memberText step margin m).toList (Text.paired m.1, j) := by
  have htext : (memberText step margin m).toList =
      (Text.quote m.1).toList ++ ':' :: ((if step.isEmpty then [] else [' ']) ++ (m.2.itemText step margin).toList) := by
    unfold memberText
    split <;> simp
  rw [htext]
  refine .mk m.1 ?_ h
  split
  · simp
  · rw [forall_mem_singleton]
    rfl

/-- **The readable text is read as the content**, whatever the indentation. -/
theorem reads_itemText (hstep : ∀ c ∈ step, Json.isBlank c = true) (hmargin : ∀ c ∈ margin, Json.isBlank c = true)
    {d : Document} (h : d.isFinite = true) : Json.Reads (d.itemText step margin).toList d.content := by
  have hnumber : ∀ {x : Float}, x.isFinite = true →
      Json.Reads (numberText x).toList (.number (Binary64.unsigned x)) := by
    intro x hx
    rw [numberText, if_pos hx]
    exact Json.reads_number hx
  induction d using inside_induction generalizing margin with
  | null => exact Json.reads_null
  | undefined => exact Json.reads_null
  | bool b => exact Json.reads_bool b
  | int i => exact reads_int i
  | count n => exact hnumber h
  | number x => exact hnumber h
  | str s => exact Json.reads_string s
  | array items ih =>
    have hitems := isFiniteItems_iff.1 h
    rw [itemText, render, Option.getD_some, toList_enclose step margin rfl rfl, renderItems_eq, map_map, content,
      contentItems_eq]
    refine Json.reads_array (isBlank_indentation hstep hmargin) (isBlank_dedentation hmargin) ?_
    rw [forall₂_map_left_iff, forall₂_map_right_iff, forall₂_same]
    exact fun d hd => ih d hd _ (isBlank_margin hstep hmargin) (hitems d hd)
  | object ms ih =>
    have hms := isFiniteMembers_iff.1 h
    rw [itemText, render, Option.getD_some, toList_enclose step margin rfl rfl, renderMembers_eq, map_map, content,
      contentMembers_eq]
    refine Json.reads_object (isBlank_indentation hstep hmargin) (isBlank_dedentation hmargin) ?_
    rw [forall₂_map_left_iff, forall₂_map_right_iff, forall₂_same]
    intro m hm
    have hmem := (mem_defined.1 hm).1
    exact entry_memberText step (margin ++ step) (ih m hmem _ (isBlank_margin hstep hmargin) (hms m hmem))

end Readable

/-! ### The canonical text -/

/-- **The canonical text is read as the content**, with the members of its objects in another order. -/
theorem reads_render_tree {d : Document} (h : d.isFinite = true) (hd : d.isDistinct = true) :
    ∃ j, Json.Reads d.tree.render j ∧ j.Same d.content := by
  have hnumber : ∀ {x : Float}, x.isFinite = true → ∃ j, Json.Reads (Json.number (Binary64.unsigned x)).render j ∧
      j.Same (.number (Binary64.unsigned x)) := by
    intro x hx
    have hreads := Json.reads_number (Binary64.isFinite_unsigned hx)
    rw [Binary64.unsigned_unsigned] at hreads
    exact ⟨_, hreads, .number _⟩
  have : Nonempty Json := ⟨.null⟩
  induction d using inside_induction with
  | null => exact ⟨_, Json.reads_null, .null⟩
  | undefined => exact ⟨_, Json.reads_null, .null⟩
  | bool b => exact ⟨_, Json.reads_bool b, .bool b⟩
  | int i => exact ⟨_, reads_int i, .string _⟩
  | count n => exact hnumber h
  | number x => exact hnumber h
  | str s => exact ⟨_, Json.reads_string s, .string _⟩
  | array items ih =>
    have hitems := isFiniteItems_iff.1 h
    choose! value hreads hsame using fun d hmem => ih d hmem (hitems d hmem) (isDistinct_array.1 hd d hmem)
    refine ⟨.array (items.map value), ?_, ?_⟩
    · rw [render_array, ← Json.enclosed_compact]
      refine Json.reads_array (by simp) (by simp) ?_
      rw [forall₂_map_left_iff, forall₂_map_right_iff, forall₂_same]
      exact hreads
    · have hpairs := Json.Same.array (items.map fun d => (value d, d.content)) (by simpa using hsame)
      rw [map_map, map_map] at hpairs
      rw [content, contentItems_eq]
      exact hpairs
  | object ms ih =>
    have hms := isFiniteMembers_iff.1 h
    obtain ⟨hnodup, hmembers⟩ := isDistinct_object.1 hd
    choose! value hreads hsame using fun m hmem => ih m hmem (hms m hmem) (hmembers m hmem)
    have hsorted := Text.perm_sortBy (·.1) (defined ms)
    let members := (Text.sortBy (·.1) (defined ms)).map fun m => (Text.paired m.1, value m)
    have hkeys : (members.map (·.1)).Nodup := by
      rw [map_map]
      exact (hsorted.map _).nodup_iff.2 hnodup
    refine ⟨.object (Members.ofList members), ?_, ?_⟩
    · rw [render_object, ← Json.enclosed_compact]
      refine Json.reads_object (by simp) (by simp) ?_
      rw [forall₂_map_left_iff, forall₂_map_right_iff, forall₂_same]
      exact fun m hm => .mk m.1 (forall_mem_nil _) (hreads m (mem_sortBy_defined.1 hm).1)
    · have hcontent : ((contentMembers ms).map (·.1)).Nodup := by
        rw [contentMembers_eq, map_map]
        exact hnodup
      refine .object ((defined ms).map fun m => (Text.paired m.1, value m, m.2.content)) ?_ ?_ ?_
      · rw [forall_mem_map]
        exact fun m hm => hsame m (mem_defined.1 hm).1
      · rw [map_map]
        exact (Members.perm_ofList hkeys).trans (hsorted.map _)
      · rw [map_map]
        refine (Members.perm_ofList hcontent).trans ?_
        rw [contentMembers_eq]
        exact .refl _

end Document

end OpGraph
