import OpGraph.CommandLine.Define
import OpGraph.Proofs.Document.Content

/-!
Integers that are given as arguments. An integer alone is read digit by digit and keeps its value. Integers in lists are
read as numbers of a JSON value, so each becomes the float that is nearest to it, and keeps its value only if it is one
itself, as all integers of 53 bits are.
-/

namespace OpGraph

open List

namespace Text

theorem trimChars_eq {cs : List Char} (hhead : ∀ c ∈ cs.head?, isBlank c = false)
    (hlast : ∀ c ∈ cs.getLast?, isBlank c = false) : trimChars cs = cs := by
  have hdrop : ∀ {cs : List Char}, (∀ c ∈ cs.head?, isBlank c = false) → cs.dropWhile isBlank = cs := by
    intro cs h
    cases cs with
    | nil => rfl
    | cons c cs => rw [dropWhile_cons_of_neg (by simpa using h c rfl)]
  rw [trimChars, hdrop hhead, hdrop (by rwa [head?_reverse]), reverse_reverse]

theorem isBlank_of_isDigit {c : Char} (h : c.isDigit = true) : isBlank c = false := by
  have hc : 48 ≤ c.toNat ∧ c.toNat ≤ 57 := by simpa [Char.isDigit, UInt32.le_iff_toNat_le] using h
  simp [isBlank]
  omega

end Text

namespace CommandLine

/-- An integer, or a list of such trees. -/
inductive IntTree where
  | leaf (i : ℤ)
  | node (items : List IntTree)

namespace IntTree

/-- The text of a tree: decimals, and lists in brackets with commas and blanks between their items. -/
def text (gap : List Char) : IntTree → List Char
  | leaf i => (toString i).toList
  | node items => '[' :: ((',' :: gap).intercalate (items.map (text gap)) ++ [']'])

/-- The literal of a tree in which integers have the given literals. -/
def literal (value : ℤ → Literal) : IntTree → Literal
  | leaf i => value i
  | node items => .list (items.map (literal value))

def json : IntTree → Json
  | leaf i => .number (Binary64.ofInt i)
  | node items => .array (items.map json)

def leaves : IntTree → List ℤ
  | leaf i => [i]
  | node items => items.flatMap leaves

theorem literal_eq_iff {f g : ℤ → Literal} (t : IntTree) :
    t.literal f = t.literal g ↔ ∀ i ∈ t.leaves, f i = g i := by
  induction t using leaves.induct with
  | case1 i => simp [literal, leaves]
  | case2 items ih =>
    simp only [literal, leaves, Literal.list.injEq, map_inj_left, mem_flatMap, forall_exists_index, and_imp]
    exact ⟨fun h i t ht hi => (ih t ht).1 (h t ht) i hi, fun h t ht => (ih t ht).2 fun i hi => h i t ht hi⟩

/-- The text of a tree is read as the JSON value of the tree. -/
theorem reads_text {gap : List Char} (hgap : ∀ c ∈ gap, Json.isBlank c = true) (t : IntTree) :
    Json.Reads (t.text gap) t.json := by
  induction t using json.induct with
  | case1 i =>
    have hreads := Json.reads_spelled (decide (i < 0)) (Shortest.spells_decimal i.natAbs)
    rw [Binary64.ofDecimal_zero, ← Shortest.toList_toString] at hreads
    rwa [text, json]
  | case2 items ih =>
    have hitems : Forall₂ Json.Reads (items.map (text gap)) (items.map json) := by
      rw [forall₂_map_left_iff, forall₂_map_right_iff, forall₂_same]
      exact ih
    have hnone : ∀ c ∈ ([] : List Char), Json.isBlank c = true := by simp
    rw [text, json]
    cases items with
    | nil => exact Json.reads_array hnone hnone .nil
    | cons t items =>
      rw [map_cons] at hitems ⊢
      have hafter := Json.intercalate_after gap [] ']' (t.text gap) (items.map (text gap))
      rw [nil_append] at hafter
      rw [hafter, map_cons]
      cases hitems with
      | cons ht hitems => exact Json.reads_items hgap hnone hnone ht hitems

theorem literalOfJson?_json (t : IntTree) :
    literalOfJson? t.json = some (t.literal fun i => .ofNumber (Binary64.ofInt i)) := by
  induction t using json.induct with
  | case1 i => rw [json, literal, literalOfJson?]
  | case2 items ih =>
    have hitems : literalsOfJson? (items.map json) =
        some (items.map (literal fun i => .ofNumber (Binary64.ofInt i))) := by
      induction items with
      | nil => rfl
      | cons t items ihs =>
        rw [forall_mem_cons] at ih
        rw [map_cons, literalsOfJson?, ih.1, ihs ih.2]
        rfl
    rw [json, literal, literalOfJson?, hitems]
    rfl

end IntTree

theorem integer?_signed (negative : Bool) {ds : List Char} (hne : ds ≠ []) (hds : ∀ c ∈ ds, c.isDigit = true) :
    integer? (Json.signed negative ds) = some (if negative then -(Json.natOfDigits ds : ℤ) else Json.natOfDigits ds) := by
  have hall : ds.all Char.isDigit = true := all_eq_true.2 hds
  have hempty : ds.isEmpty = false := by simpa using hne
  cases negative with
  | true => simp [Json.signed, integer?, hall, hempty]
  | false =>
    rw [Json.signed, if_neg Bool.false_ne_true]
    unfold integer?
    split
    rename_i heq
    split at heq
    -- digits do not start with a sign
    · exact absurd (hds _ mem_cons_self) (by decide)
    · exact absurd (hds _ mem_cons_self) (by decide)
    · cases heq
      simp [hall, hempty]

theorem parseLiteral_toString (i : ℤ) : parseLiteral (toString i) = .int i := by
  obtain ⟨ds, hds⟩ : ∃ ds, ds = Shortest.decimal i.natAbs := ⟨_, rfl⟩
  have hne : ds ≠ [] := hds ▸ Shortest.decimal_ne_nil _
  have hdigits : ∀ c ∈ ds, c.isDigit = true := fun c hc => Shortest.isDigit_of_mem_decimal (hds ▸ hc)
  have htext : (toString i).toList = Json.signed (decide (i < 0)) ds := hds ▸ Shortest.toList_toString i
  have htrim : Text.trim (toString i) = toString i := by
    have hblank : ∀ c ∈ ds, Text.isBlank c = false := fun c hc => Text.isBlank_of_isDigit (hdigits c hc)
    rw [Text.trim, Text.trimChars_eq, String.ofList_toList] <;> rw [htext, Json.signed] <;> split
    · rintro _ ⟨⟩
      rfl
    · exact fun c hc => hblank c (mem_of_mem_head? hc)
    · rw [getLast?_cons, Option.getD_of_ne_none (by simpa using hne)]
      exact fun c hc => hblank c (mem_of_getLast? hc)
    · exact fun c hc => hblank c (mem_of_getLast? hc)
  have hvalue : Json.natOfDigits ds = i.natAbs := hds ▸ Shortest.ofDigitChars_decimal _
  have hinteger := integer?_signed (decide (i < 0)) hne hdigits
  rw [← htext, hvalue] at hinteger
  simp only [parseLiteral, htrim, hinteger, Literal.int.injEq, decide_eq_true_eq]
  split <;> omega

theorem ofNumber_eq_int_iff {x : Float} {i : ℤ} : Literal.ofNumber x = .int i ↔ Binary64.toInt? x = some i := by
  unfold Literal.ofNumber
  split <;> simp_all

theorem parseLiteral_node {gap : List Char} (hgap : ∀ c ∈ gap, Json.isBlank c = true) (items : List IntTree) :
    parseLiteral (String.ofList ((IntTree.node items).text gap)) =
      (IntTree.node items).literal fun i => .ofNumber (Binary64.ofInt i) := by
  have htext := IntTree.text.eq_2 gap items
  have htrim : Text.trim (String.ofList ((IntTree.node items).text gap)) =
      String.ofList ((IntTree.node items).text gap) := by
    rw [Text.trim, String.toList_ofList, Text.trimChars_eq] <;> rw [htext]
    · rintro _ ⟨⟩
      rfl
    · rw [← cons_append, getLast?_concat]
      rintro _ ⟨⟩
      rfl
  have hinteger : integer? ((IntTree.node items).text gap) = none := by
    rw [htext]
    rfl
  have hread : Json.read? (String.ofList ((IntTree.node items).text gap)) = some (IntTree.node items).json :=
    Json.read?_of_reads (by rw [String.toList_ofList]; exact IntTree.reads_text hgap _)
  simp only [parseLiteral, htrim, String.toList_ofList, hinteger, hread, Option.bind_some,
    IntTree.literalOfJson?_json, Option.getD_some]

/-- **Integers of arguments**: an integer alone is read as it is. In a list, and in lists of it, each becomes the number
nearest to it, so that a list is read as it is if and only if all of its integers are floats. Those of 53 bits are. -/
theorem integer_arguments {gap : List Char} (hgap : ∀ c ∈ gap, Json.isBlank c = true) :
    (∀ i : ℤ, parseLiteral (toString i) = .int i) ∧
    ∀ items, let t := IntTree.node items
      let l := parseLiteral (String.ofList (t.text gap))
      l = t.literal (fun i => .ofNumber (Binary64.ofInt i)) ∧
      (l = t.literal .int ↔ ∀ i ∈ t.leaves, Binary64.toInt? (Binary64.ofInt i) = some i) ∧
      ((∀ i ∈ t.leaves, i.natAbs < 2 ^ 53) → l = t.literal .int) := by
  refine ⟨parseLiteral_toString, fun items => ?_⟩
  intro t l
  have hl : l = t.literal fun i => .ofNumber (Binary64.ofInt i) := parseLiteral_node hgap items
  have hexact : l = t.literal .int ↔ ∀ i ∈ t.leaves, Binary64.toInt? (Binary64.ofInt i) = some i := by
    rw [hl, IntTree.literal_eq_iff]
    simp only [ofNumber_eq_int_iff]
  exact ⟨hl, hexact, fun h => hexact.2 fun i hi => Binary64.toInt?_ofInt (h i hi)⟩

theorem integer_arguments_sample : parseLiteral "[1, [-2, 9007199254740991]]" =
    .list [.int 1, .list [.int (-2), .int 9007199254740991]] := by
  have h := ((@integer_arguments [' '] (by simp [Json.isBlank])).2
    [.leaf 1, .node [.leaf (-2), .leaf 9007199254740991]]).2.2 (by simp [IntTree.leaves])
  have htext : String.ofList ((IntTree.node [.leaf 1, .node [.leaf (-2), .leaf 9007199254740991]]).text [' ']) =
      "[1, [-2, 9007199254740991]]" := by
    simp only [IntTree.text, map_cons, map_nil]
    decide +kernel
  simpa only [htext, IntTree.literal, map_cons, map_nil] using h

/-- The last digit of an integer is lost in a list. -/
theorem integer_arguments_rounded : parseLiteral "9007199254740993" = .int 9007199254740993 ∧
    parseLiteral "[9007199254740993]" = .list [.int 9007199254740992] := by
  have h := @parseLiteral_node [] (by simp) [.leaf 9007199254740993]
  have htext : String.ofList ((IntTree.node [.leaf 9007199254740993]).text []) = "[9007199254740993]" := by
    simp only [IntTree.text, map_cons, map_nil]
    decide +kernel
  have hrounded : Binary64.toInt? (Binary64.ofInt 9007199254740993) = some 9007199254740992 := by decide +kernel
  rw [htext] at h
  exact ⟨rfl, h.trans (by simp only [IntTree.literal, map_cons, map_nil, Literal.ofNumber, hrounded])⟩

end CommandLine

end OpGraph
