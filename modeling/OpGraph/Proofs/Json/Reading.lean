import OpGraph.Proofs.Json.Rendering

/-!
JSON texts, read back. A text is read as a value if it is so in front of everything that may follow a value; texts of
items and members that are, between brackets, with a separator between them and blanks where the format allows blanks,
are read as an array or an object.
-/

namespace OpGraph

open List
open Json (stringUnits)

variable {c : Char} {j : Json} {texts : List (List Char)} {m : String × Json} {u : ℕ}

namespace Text

/-- A text as it is read: neighbouring surrogates that make a pair become one character. -/
def paired (s : String) : String :=
  String.ofList (ofUnits (units s))

theorem unitsOf_of_lt (h : c.toNat < 0x10000) : unitsOf c = [c.toNat] := by
  have hlone : isLone c = false := by
    simp only [isLone, Bool.and_eq_false_iff, decide_eq_false_iff_not]
    omega
  simp only [unitsOf, hlone]
  rw [if_neg Bool.false_ne_true, if_pos h]

theorem unitsOf_of_isLone (h : isLone c = true) : unitsOf c = [leadUnit c] := by
  simp only [unitsOf, leadUnit, h, if_true]

theorem joinPairs_cons (h : ¬(0xD800 ≤ u ∧ u < 0xDC00)) (us : List ℕ) : joinPairs (u :: us) = u :: joinPairs us := by
  cases us with
  | nil => rfl
  | cons l us => rw [joinPairs, if_neg fun hpair => h ⟨hpair.1, hpair.2.1⟩]

theorem joinPairs_unitsOf (h : isLone c = false) (us : List ℕ) :
    joinPairs (unitsOf c ++ us) = c.toNat :: joinPairs us := by
  have hvalid := toNat_valid c
  rcases lt_or_ge c.toNat 0x10000 with hlt | hge
  · rw [unitsOf_of_lt hlt, singleton_append, joinPairs_cons (by omega)]
  · simp only [unitsOf, h]
    rw [if_neg Bool.false_ne_true, if_neg (by omega), cons_append, singleton_append, joinPairs,
      if_pos (by omega)]
    exact congrArg (· :: joinPairs us) (by omega)

theorem paired_of_notLone {s : String} (h : ∀ c ∈ s.toList, isLone c = false) : paired s = s := by
  have hjoin : ∀ {cs : List Char}, (∀ c ∈ cs, isLone c = false) → ofUnits (cs.flatMap unitsOf) = cs := by
    intro cs hcs
    induction cs with
    | nil => rfl
    | cons c cs ih =>
      rw [forall_mem_cons] at hcs
      have ih := ih hcs.2
      rw [ofUnits] at ih ⊢
      rw [flatMap_cons, joinPairs_unitsOf hcs.1, map_cons, ofUnit_toNat, ih]
  rw [paired, units, hjoin h, String.ofList_toList]

theorem paired_toString (i : ℤ) : paired (toString i) = toString i := by
  have hdigits : ∀ n, ∀ c ∈ Shortest.decimal n, isLone c = false := by
    intro n c hc
    have hdigit := Shortest.isDigit_of_mem_decimal hc
    have hval : c.toNat = c.val.toNat := rfl
    simp only [Char.isDigit, ge_iff_le, Bool.and_eq_true, decide_eq_true_eq, UInt32.le_iff_toNat_le] at hdigit
    simp only [isLone, Bool.and_eq_false_iff, decide_eq_false_iff_not]
    have hnine := hdigit.2
    change c.val.toNat ≤ 57 at hnine
    omega
  refine paired_of_notLone ?_
  rw [Shortest.toList_toString, Json.signed]
  split
  · exact forall_mem_cons.2 ⟨rfl, hdigits _⟩
  · exact hdigits _

section Escapes

variable (fuel : ℕ) (cs : List Char)

theorem stringUnits_unitEscape (h : u < 0x10000) : stringUnits (fuel + 1) (unitEscape u ++ cs) =
    (stringUnits fuel cs).map fun (us, rest) => (u :: us, rest) := by
  simp only [unitEscape, cons_append, nil_append, stringUnits, hexUnit_hexDigits h]
  change (stringUnits fuel cs).bind _ = _
  cases stringUnits fuel cs <;> rfl

theorem stringUnits_simpleEscape {e : Char} (h : stringUnits.simpleEscape e = some u) :
    stringUnits (fuel + 1) ('\\' :: e :: cs) =
      (stringUnits fuel cs).map fun (us, rest) => (u :: us, rest) := by
  rw [stringUnits, h]
  · change (stringUnits fuel cs).bind _ = _
    cases stringUnits fuel cs <;> rfl
  · rintro rfl
    cases h

theorem stringUnits_plain (hquote : c ≠ '"') (hbackslash : c ≠ '\\') (hcontrol : 0x20 ≤ c.toNat) :
    stringUnits (fuel + 1) (c :: cs) =
      (stringUnits fuel cs).map fun (us, rest) => (unitsOf c ++ us, rest) := by
  rw [stringUnits, if_neg (not_or.2 ⟨hbackslash, not_lt.2 hcontrol⟩)]
  · cases stringUnits fuel cs <;> rfl
  · exact hquote
  · exact fun _ h => absurd h hbackslash
  · exact fun _ _ h => absurd h hbackslash

theorem stringUnits_escape (c : Char) : stringUnits (fuel + 1) (escape c ++ cs) =
    (stringUnits fuel cs).map fun (us, rest) => (unitsOf c ++ us, rest) := by
  have hsimple : ∀ {e u}, stringUnits.simpleEscape e = some u → c.toNat = u → u < 0x10000 →
      stringUnits (fuel + 1) ('\\' :: e :: cs) =
        (stringUnits fuel cs).map fun (us, rest) => (unitsOf c ++ us, rest) := by
    rintro e _ he rfl hu
    rw [unitsOf_of_lt hu]
    exact stringUnits_simpleEscape fuel cs he
  unfold escape
  split_ifs with h1 h2 h3 h4 h5 h6 h7 h8 h9
  · exact hsimple rfl (h1 ▸ rfl) (by norm_num)
  · exact hsimple rfl (h2 ▸ rfl) (by norm_num)
  · exact hsimple rfl h3 (by norm_num)
  · exact hsimple rfl h4 (by norm_num)
  · exact hsimple rfl h5 (by norm_num)
  · exact hsimple rfl h6 (by norm_num)
  · exact hsimple rfl h7 (by norm_num)
  · rw [unitsOf_of_lt (by omega)]
    exact stringUnits_unitEscape fuel cs (by omega)
  · rw [unitsOf_of_isLone h9]
    exact stringUnits_unitEscape fuel cs (leadUnit_lt h9)
  · exact stringUnits_plain fuel cs h1 h2 (by omega)

end Escapes

theorem stringUnits_flatMap {fuel : ℕ} {cs : List Char} (h : cs.length < fuel) (rest : List Char) :
    stringUnits fuel (cs.flatMap escape ++ '"' :: rest) = some (cs.flatMap unitsOf, rest) := by
  induction cs generalizing fuel with
  | nil =>
    obtain ⟨fuel, rfl⟩ := Nat.exists_eq_succ_of_ne_zero (Nat.ne_of_gt h)
    rfl
  | cons c cs ih =>
    obtain ⟨fuel, rfl⟩ := Nat.exists_eq_succ_of_ne_zero (Nat.ne_of_gt (Nat.zero_lt_of_lt h))
    rw [flatMap_cons, append_assoc, stringUnits_escape, ih (Nat.lt_of_succ_lt_succ h)]
    rfl

theorem length_le_flatMap_escape (cs : List Char) : cs.length ≤ (cs.flatMap escape).length := by
  induction cs with
  | nil => exact le_rfl
  | cons c cs ih =>
    obtain ⟨d, rest, hd, -⟩ := escape_cons c
    rw [flatMap_cons, length_append, hd, length_cons, length_cons]
    omega

theorem toList_quote (s : String) : (quote s).toList = '"' :: (s.toList.flatMap escape ++ ['"']) := by
  rw [quote, String.toList_ofList, cons_append]

/-- **A quoted text is read as the text**, up to surrogates that make a pair. -/
theorem stringText_escaped (s : String) (rest : List Char) :
    Json.stringText (s.toList.flatMap escape ++ '"' :: rest) = some (paired s, rest) := by
  have hlength := length_le_flatMap_escape s.toList
  rw [Json.stringText, stringUnits_flatMap (by rw [length_append]; omega)]
  rfl

end Text

namespace Members

/-! ### Members in their order -/

variable {α : Type}

theorem set_of_notMem {ms : List (String × α)} {key : String} (h : key ∉ ms.map (·.1)) (v : α) :
    set ms key v = ms ++ [(key, v)] := by
  induction ms with
  | nil => rfl
  | cons m ms ih =>
    rw [map_cons, mem_cons, not_or] at h
    rw [set, if_neg fun heq => h.1 heq.symm, ih h.2, cons_append]

theorem foldl_set_of_nodup {ms entries : List (String × α)} (h : ((ms ++ entries).map (·.1)).Nodup) :
    entries.foldl (fun ms (k, v) => set ms k v) ms = ms ++ entries := by
  induction entries generalizing ms with
  | nil => rw [foldl_nil, append_nil]
  | cons m entries ih =>
    obtain ⟨key, v⟩ := m
    have hkey : key ∉ ms.map (·.1) := by
      rw [map_append, nodup_append] at h
      exact fun hmem => h.2.2 _ hmem _ mem_cons_self rfl
    rw [foldl_cons]
    change entries.foldl _ (set ms key v) = _
    rw [set_of_notMem hkey, ih, append_assoc]
    · rfl
    · rwa [append_assoc]

theorem perm_ofList {entries : List (String × α)} (h : (entries.map (·.1)).Nodup) : (ofList entries).Perm entries := by
  have hindexed : ∀ ms : List (String × α),
      (ms.filterMap fun m => (index? m.1).map fun i => (i, m)).map (·.2) = ms.filter fun m => (index? m.1).isSome := by
    intro ms
    induction ms with
    | nil => rfl
    | cons m ms ih =>
      rw [filterMap_cons, filter_cons]
      cases index? m.1 with
      | none => exact ih
      | some i => exact congrArg (m :: ·) ih
  unfold ofList
  simp only
  rw [foldl_set_of_nodup h, nil_append]
  refine (((mergeSort_perm _ _).map _).append_right _).trans ?_
  rw [hindexed]
  have hnot : (fun m : String × α => (index? m.1).isNone) = fun m => !(index? m.1).isSome := by
    funext m
    cases index? m.1 <;> rfl
  rw [hnot]
  exact filter_append_perm _ entries

end Members

namespace Json

/-! ### Blanks -/

section Blanks

variable {blanks cs : List Char}

theorem skipBlank_append (h : ∀ c ∈ blanks, isBlank c = true) (hcs : ∀ c ∈ cs.head?, isBlank c = false) :
    skipBlank (blanks ++ cs) = cs := by
  rw [skipBlank, dropWhile_append_of_pos h]
  cases cs with
  | nil => rfl
  | cons c cs => exact dropWhile_cons_of_neg (by simpa using hcs c rfl)

theorem skipBlank_skipBlank (cs : List Char) : skipBlank (skipBlank cs) = skipBlank cs := by
  rw [skipBlank, skipBlank, dropWhile_idempotent]

end Blanks

theorem items_skipBlank (fuel : ℕ) (cs : List Char) : items fuel (skipBlank cs) = items fuel cs := by
  cases fuel with
  | zero => rfl
  | succ fuel => rw [items, items, skipBlank_skipBlank]

theorem entries_skipBlank (fuel : ℕ) (cs : List Char) : entries fuel (skipBlank cs) = entries fuel cs := by
  cases fuel with
  | zero => rfl
  | succ fuel => rw [entries, entries, skipBlank_skipBlank]

theorem value_array {cs : List Char} (h : ∀ c ∈ (skipBlank cs).head?, c ≠ ']') (fuel : ℕ) :
    value (fuel + 1) ('[' :: cs) = (items fuel cs).map fun (js, rest) => (.array js, rest) := by
  rw [← items_skipBlank, value]
  split
  · rename_i heq
    exact absurd rfl (h ']' (by rw [heq]; rfl))
  · cases items fuel (skipBlank cs) <;> rfl

theorem value_object {cs : List Char} (h : ∀ c ∈ (skipBlank cs).head?, c ≠ '\x7d') (fuel : ℕ) :
    value (fuel + 1) ('\x7b' :: cs) = (entries fuel cs).map fun (ms, rest) => (.object (Members.ofList ms), rest) := by
  rw [← entries_skipBlank, value]
  split
  · rename_i heq
    exact absurd rfl (h '\x7d' (by rw [heq]; rfl))
  · cases entries fuel (skipBlank cs) <;> rfl

/-! ### Values -/

/-- A text that is read as a value, whatever may follow. -/
structure Reads (cs : List Char) (j : Json) : Prop where
  lead : ∃ c rest, cs = c :: rest ∧ isBlank c = false ∧ c ≠ ']'
  value : ∀ {fuel rest}, 2 * cs.length ≤ fuel → Follows rest → Json.value fuel (cs ++ rest) = some (j, rest)

theorem Reads.head {cs : List Char} (h : Reads cs j) (rest : List Char) :
    ∀ c ∈ (cs ++ rest).head?, isBlank c = false ∧ c ≠ ']' := by
  obtain ⟨c, cs, rfl, hc⟩ := h.lead
  rintro _ ⟨⟩
  exact hc

theorem Reads.cons {cs : List Char} (hblank : isBlank c = false) (hclose : c ≠ ']')
    (h : ∀ {fuel rest}, 2 * cs.length < fuel → Follows rest → Json.value (fuel + 1) (c :: (cs ++ rest)) = some (j, rest)) :
    Reads (c :: cs) j where
  lead := ⟨c, cs, rfl, hblank, hclose⟩
  value := by
    intro fuel rest hfuel hrest
    rw [length_cons] at hfuel
    obtain _ | fuel := fuel
    · omega
    exact h (by omega) hrest

theorem reads_null : Reads "null".toList .null :=
  .cons (by decide) (by decide) fun _ _ => rfl

theorem reads_bool (b : Bool) : Reads (if b then "true" else "false").toList (.bool b) := by
  cases b with
  | false | true => exact .cons (by decide) (by decide) fun _ _ => rfl

/-- A spelled number is read with its sign. -/
theorem reads_spelled (negative : Bool) {cs : List Char} {n : ℕ} {e : ℤ} (h : Spells cs n e) :
    Reads (signed negative cs) (.number (Binary64.ofDecimal negative n e)) := by
  obtain ⟨hne, hnumeral⟩ := h.numeral_signed negative
  obtain ⟨c, text, hc⟩ := exists_cons_of_ne_nil hne
  have hlead : ∀ d, Shortest.isNumeral d = false → c ≠ d := by
    rintro d hd rfl
    rw [hnumeral c (hc ▸ mem_cons_self)] at hd
    cases hd
  rw [hc]
  refine .cons ?_ (hlead _ rfl) fun {fuel rest} _ hrest => ?_
  · simp [isBlank, hlead ' ' rfl, hlead '\t' rfl, hlead '\n' rfl, hlead '\r' rfl]
  · have hnumber := numberText_of_spells negative h hrest
    rw [hc, cons_append] at hnumber
    rw [Json.value, hnumber]
    · rfl
    all_goals exact fun _ heq => absurd (List.cons.inj heq).1 (hlead _ (by rfl))

theorem reads_number {x : Float} (h : x.isFinite = true) :
    Reads (Shortest.text x).toList (.number (Binary64.unsigned x)) := by
  obtain ⟨negative, cs, n, e, htext, hspells, hx⟩ := Shortest.exists_spells h
  rw [htext, ← hx]
  exact reads_spelled negative hspells

theorem reads_string (s : String) : Reads (Text.quote s).toList (.string (Text.paired s)) := by
  rw [Text.toList_quote]
  refine .cons (by decide) (by decide) fun _ _ => ?_
  rw [append_assoc, singleton_append, Json.value, Text.stringText_escaped]
  rfl

/-! ### Arrays and objects -/

inductive Entry : List Char → String × Json → Prop
  | mk (key : String) {gap cs : List Char} {j : Json} (hgap : ∀ c ∈ gap, isBlank c = true) (h : Reads cs j) :
    Entry ((Text.quote key).toList ++ ':' :: (gap ++ cs)) (Text.paired key, j)

/-- What comes after the first of several texts between brackets, with blanks in front of each and of the closing
bracket. -/
def after (pre post : List Char) (close : Char) : List (List Char) → List Char
  | [] => post ++ [close]
  | cs :: texts => ',' :: (pre ++ (cs ++ after pre post close texts))

def enclosed (opening close : Char) (pre post : List Char) : List (List Char) → List Char
  | [] => [opening, close]
  | cs :: texts => opening :: (pre ++ (cs ++ after pre post close texts))

section Sequences

variable {pre post : List Char} {close : Char} {β : Type}

/-- Texts with separators between them are read one after the other, if each is read in front of a separator and in
front of the closing bracket. -/
theorem many_after {many : ℕ → Reader (List β)} {Part : List Char → β → Prop}
    (hnext : ∀ {fuel cs b more}, Part cs b → 2 * cs.length ≤ fuel →
      many (fuel + 1) (pre ++ (cs ++ ',' :: more)) = (many fuel more).map fun (bs, rest) => (b :: bs, rest))
    (hlast : ∀ {fuel cs b rest}, Part cs b → 2 * cs.length ≤ fuel →
      many (fuel + 1) (pre ++ (cs ++ (post ++ close :: rest))) = some ([b], rest)) {bs : List β}
    (htexts : Forall₂ Part texts bs) {cs : List Char} {b : β} (hcs : Part cs b) {fuel : ℕ}
    (hfuel : 2 * (cs ++ after pre post close texts).length ≤ fuel) (rest : List Char) :
    many fuel (pre ++ (cs ++ (after pre post close texts ++ rest))) = some (b :: bs, rest) := by
  induction htexts generalizing cs b fuel with
  | nil =>
    simp only [after, length_append, length_singleton] at hfuel
    obtain _ | fuel := fuel
    · omega
    rw [after, append_assoc, singleton_append]
    exact hlast hcs (by omega)
  | cons hcs' _ ih =>
    simp only [after, length_append, length_cons] at hfuel
    obtain _ | fuel := fuel
    · omega
    rw [after, cons_append, append_assoc, append_assoc, hnext hcs (by omega),
      ih hcs' (by rw [length_append]; omega)]
    rfl

end Sequences

theorem follows_comma (rest : List Char) : Follows (',' :: rest) := by
  rintro _ ⟨⟩
  exact .inr (.inl rfl)

theorem follows_close {post : List Char} (hpost : ∀ c ∈ post, isBlank c = true) {close : Char}
    (hclose : close = ']' ∨ close = '\x7d') (rest : List Char) : Follows (post ++ close :: rest) := by
  cases post with
  | nil =>
    rintro _ ⟨⟩
    exact .inr (.inr hclose)
  | cons c post =>
    rintro _ ⟨⟩
    exact .inl (hpost c mem_cons_self)

section Brackets

variable {pre post cs : List Char} {fuel : ℕ} (hpre : ∀ c ∈ pre, isBlank c = true)
  (hpost : ∀ c ∈ post, isBlank c = true)

include hpost in
theorem skipBlank_close {close : Char} (hclose : isBlank close = false) (rest : List Char) :
    skipBlank (post ++ close :: rest) = close :: rest :=
  skipBlank_append hpost (by rintro _ ⟨⟩; exact hclose)

include hpre

theorem skipBlank_reads (h : Reads cs j) (rest : List Char) : skipBlank (pre ++ (cs ++ rest)) = cs ++ rest :=
  skipBlank_append hpre fun c hc => (h.head rest c hc).1

theorem items_next (h : Reads cs j) (hfuel : 2 * cs.length ≤ fuel) (more : List Char) :
    items (fuel + 1) (pre ++ (cs ++ ',' :: more)) = (items fuel more).map fun (js, rest) => (j :: js, rest) := by
  rw [items, skipBlank_reads hpre h, h.value hfuel (follows_comma more)]
  change (items fuel more).bind _ = _
  cases items fuel more <;> rfl

theorem entries_eq (h : Entry cs m) (hfuel : 2 * cs.length ≤ fuel) {more : List Char} (hmore : Follows more) :
    entries (fuel + 1) (pre ++ (cs ++ more)) = (match skipBlank more with
      | ',' :: rest => do
        let (ms, rest) ← entries fuel rest
        return (m :: ms, rest)
      | '\x7d' :: rest => return ([m], rest)
      | _ => none) := by
  obtain ⟨key, hgap, h⟩ := h
  rename_i gap cs j
  have hlength : 2 * cs.length ≤ fuel := by
    simp only [length_append, length_cons] at hfuel
    omega
  have hquote : (Text.quote key).toList ++ ':' :: (gap ++ cs) ++ more =
      '"' :: (key.toList.flatMap Text.escape ++ '"' :: ':' :: (gap ++ (cs ++ more))) := by
    simp [Text.toList_quote]
  rw [entries, hquote, skipBlank_close hpre rfl]
  simp only [Text.stringText_escaped, Option.bind_eq_bind, Option.bind_some]
  rw [show skipBlank (':' :: (gap ++ (cs ++ more))) = ':' :: (gap ++ (cs ++ more)) from rfl]
  simp only [skipBlank_reads hgap h, h.value hlength hmore]
  rfl

theorem entries_next (h : Entry cs m) (hfuel : 2 * cs.length ≤ fuel) (more : List Char) :
    entries (fuel + 1) (pre ++ (cs ++ ',' :: more)) = (entries fuel more).map fun (ms, rest) => (m :: ms, rest) := by
  rw [entries_eq hpre h hfuel (follows_comma more)]
  change (entries fuel more).bind _ = _
  cases entries fuel more <;> rfl

include hpost

theorem items_last (h : Reads cs j) (hfuel : 2 * cs.length ≤ fuel) (rest : List Char) :
    items (fuel + 1) (pre ++ (cs ++ (post ++ ']' :: rest))) = some ([j], rest) := by
  rw [items, skipBlank_reads hpre h, h.value hfuel (follows_close hpost (.inl rfl) rest)]
  simp only [Option.bind_eq_bind, Option.bind_some, skipBlank_close hpost (show isBlank ']' = false from rfl)]
  rfl

theorem entries_last (h : Entry cs m) (hfuel : 2 * cs.length ≤ fuel) (rest : List Char) :
    entries (fuel + 1) (pre ++ (cs ++ (post ++ '\x7d' :: rest))) = some ([m], rest) := by
  rw [entries_eq hpre h hfuel (follows_close hpost (.inr rfl) rest), skipBlank_close hpost rfl]
  rfl

/-- Items that are read make an array that is, with any blanks in front of the first one. -/
theorem reads_items {lead : List Char} (hlead : ∀ c ∈ lead, isBlank c = true) {js : List Json} (h : Reads cs j)
    (htexts : Forall₂ Reads texts js) :
    Reads ('[' :: (lead ++ (cs ++ after pre post ']' texts))) (.array (j :: js)) := by
  refine .cons (by decide) (by decide) fun {fuel rest} hfuel _ => ?_
  have hskip := skipBlank_reads hlead h (after pre post ']' texts ++ rest)
  have hfuel : 2 * (cs ++ after pre post ']' texts).length ≤ fuel := by
    rw [length_append] at hfuel
    omega
  rw [append_assoc, append_assoc, value_array (by rw [hskip]; exact fun c hc => (h.head _ c hc).2), ← items_skipBlank,
    hskip, ← skipBlank_reads hpre h, items_skipBlank,
    many_after (fun h hfuel => items_next hpre h hfuel _) (fun h hfuel => items_last hpre hpost h hfuel _) htexts h hfuel]
  rfl

theorem reads_array {js : List Json} (h : Forall₂ Reads texts js) :
    Reads (enclosed '[' ']' pre post texts) (.array js) := by
  cases h with
  | nil => exact .cons (by decide) (by decide) fun _ _ => rfl
  | cons hcs htexts => exact reads_items hpre hpost hpre hcs htexts

/-- **Members that are read make an object that is.** -/
theorem reads_object {ms : List (String × Json)} (h : Forall₂ Entry texts ms) :
    Reads (enclosed '\x7b' '\x7d' pre post texts) (.object (Members.ofList ms)) := by
  cases h with
  | nil =>
    rw [perm_nil.1 (Members.perm_ofList nodup_nil)]
    exact .cons (by decide) (by decide) fun _ _ => rfl
  | @cons cs m texts ms hcs htexts =>
    refine .cons (by decide) (by decide) fun {fuel rest} hfuel _ => ?_
    have hlead : ∀ c ∈ (skipBlank (pre ++ (cs ++ (after pre post '\x7d' texts ++ rest)))).head?, c ≠ '\x7d' := by
      obtain ⟨key, hgap, h⟩ := hcs
      rw [Text.toList_quote]
      simp only [cons_append, skipBlank_close hpre (show isBlank '"' = false from rfl)]
      rintro _ ⟨⟩
      decide
    have hfuel : 2 * (cs ++ after pre post '\x7d' texts).length ≤ fuel := by
      rw [length_append] at hfuel
      omega
    rw [append_assoc, append_assoc, value_object hlead,
      many_after (fun hcs hfuel => entries_next hpre hcs hfuel _) (fun hcs hfuel => entries_last hpre hpost hcs hfuel _)
        htexts hcs hfuel]
    rfl

end Brackets

theorem read?_of_reads {text : String} (h : Reads text.toList j) : read? text = some j := by
  have hskip : skipBlank text.toList = text.toList := by
    have hskip : skipBlank ([] ++ (text.toList ++ [])) = text.toList ++ [] := skipBlank_reads (by simp) h []
    rwa [append_nil, nil_append] at hskip
  have hvalue : value (2 * text.toList.length + 2) text.toList = some (j, []) := by
    have hvalue : value (2 * text.toList.length + 2) (text.toList ++ []) = some (j, []) := h.value (by omega) .nil
    rwa [append_nil] at hvalue
  rw [read?, hskip, hvalue]
  rfl

end Json

end OpGraph
