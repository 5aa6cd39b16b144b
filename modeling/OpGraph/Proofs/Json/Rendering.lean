import OpGraph.Proofs.Number.Reading
import OpGraph.Text.Quoted

/-!
The compact text of JSON values. No text of a value is the beginning of another: what is read up to a separator or a
closing bracket determines the value.
-/

namespace OpGraph

open List
open Shortest (isNumeral numeral_text)

variable {c close : Char} {j j' : Json} {r r' : List Char} {u : ℕ}

namespace Text

/-! ### Quoted text -/

/-- Reads one character between quotes. -/
def unescape : List Char → Option (Char × List Char)
  | '\\' :: 'u' :: rest => (Json.hexUnit rest).map fun (u, rest) => (ofUnit u, rest)
  | '\\' :: c :: rest => (Json.stringUnits.simpleEscape c).map fun u => (Char.ofNat u, rest)
  | c :: rest => some (c, rest)
  | [] => none

theorem hexValue_hexDigit {n : ℕ} (h : n < 16) : Json.hexValue (hexDigit n) = some n := by
  have htable : ∀ n : Fin 16, Json.hexValue (hexDigit n) = some n.val := by decide
  exact htable ⟨n, h⟩

theorem hexUnit_hexDigits (h : u < 0x10000) (rest : List Char) :
    Json.hexUnit (hexDigit (u / 4096 % 16) :: hexDigit (u / 256 % 16) :: hexDigit (u / 16 % 16) ::
      hexDigit (u % 16) :: rest) = some (u, rest) := by
  have hdigit : ∀ k, Json.hexValue (hexDigit (k % 16)) = some (k % 16) := fun k =>
    hexValue_hexDigit (Nat.mod_lt _ (by norm_num))
  simp only [Json.hexUnit, hdigit]
  change some (_, rest) = some (u, rest)
  congr 2
  omega

theorem unescape_unitEscape (h : u < 0x10000) (rest : List Char) :
    unescape (unitEscape u ++ rest) = some (ofUnit u, rest) := by
  simp only [unitEscape, cons_append, nil_append, unescape, hexUnit_hexDigits h, Option.map_some]

theorem toNat_valid (c : Char) : c.toNat < 0xD800 ∨ 0xDFFF < c.toNat ∧ c.toNat < 0x110000 :=
  c.valid

theorem ofUnit_toNat (c : Char) : ofUnit c.toNat = c := by
  have hs : isSurrogate c.toNat = false := by
    have hvalid := toNat_valid c
    simp only [isSurrogate, Bool.and_eq_false_iff, decide_eq_false_iff_not]
    omega
  rw [ofUnit, hs, if_neg Bool.false_ne_true, Char.ofNat_toNat]

theorem ofUnit_lone (h : isLone c = true) : ofUnit (leadUnit c) = c := by
  have hrange : 0x10D800 ≤ c.toNat ∧ c.toNat < 0x10E000 := by simpa [isLone] using h
  have hs : isSurrogate (c.toNat - 0x100000) = true := by simp [isSurrogate]; omega
  rw [leadUnit, if_pos h, ofUnit, if_pos hs, show 0x100000 + (c.toNat - 0x100000) = c.toNat by omega, Char.ofNat_toNat]

theorem leadUnit_lt (h : isLone c = true) : leadUnit c < 0x10000 := by
  have hrange : 0x10D800 ≤ c.toNat ∧ c.toNat < 0x10E000 := by simpa [isLone] using h
  rw [leadUnit, if_pos h]
  omega

theorem unescape_escape (c : Char) (rest : List Char) : unescape (escape c ++ rest) = some (c, rest) := by
  have hnat : ∀ n, c.toNat = n → Char.ofNat n = c := by
    rintro n rfl
    exact Char.ofNat_toNat c
  unfold escape
  split_ifs with h1 h2 h3 h4 h5 h6 h7 h8 h9
  · subst h1
    rfl
  · subst h2
    rfl
  · exact congrArg (fun d => some (d, rest)) (hnat _ h3)
  · exact congrArg (fun d => some (d, rest)) (hnat _ h4)
  · exact congrArg (fun d => some (d, rest)) (hnat _ h5)
  · exact congrArg (fun d => some (d, rest)) (hnat _ h6)
  · exact congrArg (fun d => some (d, rest)) (hnat _ h7)
  · rw [unescape_unitEscape (by omega), ofUnit_toNat]
  · rw [unescape_unitEscape (leadUnit_lt h9), ofUnit_lone h9]
  · rw [singleton_append, unescape]
    · rintro _ rfl
      exact absurd rfl h2
    · rintro _ _ rfl
      exact absurd rfl h2

theorem escape_cons (c : Char) : ∃ d rest, escape c = d :: rest ∧ d ≠ '"' := by
  unfold escape unitEscape
  split_ifs with h1
  all_goals first | exact ⟨_, _, rfl, by decide⟩ | exact ⟨_, _, rfl, h1⟩

theorem escaped_inj {cs ds : List Char} (h : cs.flatMap escape ++ '"' :: r = ds.flatMap escape ++ '"' :: r') :
    cs = ds ∧ r = r' := by
  induction cs generalizing ds with
  | nil =>
    cases ds with
    | nil => exact ⟨rfl, by simpa using h⟩
    | cons d ds =>
      obtain ⟨e, rest, he, hne⟩ := escape_cons d
      rw [flatMap_cons, he] at h
      exact absurd (List.cons.inj h).1.symm hne
  | cons c cs ih =>
    cases ds with
    | nil =>
      obtain ⟨e, rest, he, hne⟩ := escape_cons c
      rw [flatMap_cons, he] at h
      exact absurd (List.cons.inj h).1 hne
    | cons d ds =>
      rw [flatMap_cons, flatMap_cons, append_assoc, append_assoc] at h
      have hread := congrArg unescape h
      rw [unescape_escape, unescape_escape] at hread
      obtain ⟨rfl, hrest⟩ := Prod.mk.inj (Option.some.inj hread)
      obtain ⟨rfl, hr⟩ := ih hrest
      exact ⟨rfl, hr⟩

theorem quote_inj {s t : String} (h : (quote s).toList ++ r = (quote t).toList ++ r') : s = t ∧ r = r' := by
  simp only [quote, String.toList_ofList, cons_append, append_assoc, nil_append, List.cons.injEq, true_and] at h
  obtain ⟨hst, hr⟩ := escaped_inj h
  exact ⟨String.toList_inj.1 hst, hr⟩

end Text

namespace Json

/-! ### Compact text -/

mutual
def render : Json → List Char
  | null => "null".toList
  | bool b => (if b then "true" else "false").toList
  | number x => (Shortest.text x).toList
  | string s => (Text.quote s).toList
  | array items => '[' :: ([','].intercalate (renderItems items) ++ [']'])
  | object members => '\x7b' :: ([','].intercalate (renderMembers members) ++ ['\x7d'])
def renderItems : List Json → List (List Char)
  | [] => []
  | j :: js => j.render :: renderItems js
def renderMembers : List (String × Json) → List (List Char)
  | [] => []
  | (key, j) :: ms => ((Text.quote key).toList ++ ':' :: j.render) :: renderMembers ms
end

def renderMember (m : String × Json) : List Char :=
  (Text.quote m.1).toList ++ ':' :: m.2.render

theorem renderItems_eq (js : List Json) : renderItems js = js.map render := by
  induction js with
  | nil => rfl
  | cons j js ih => rw [renderItems, ih, map_cons]

theorem renderMembers_eq (ms : List (String × Json)) : renderMembers ms = ms.map renderMember := by
  induction ms with
  | nil => rfl
  | cons m ms ih => rw [renderMembers, ih, map_cons, renderMember]

/-- All numbers of a value are finite, and its zeros have no sign. -/
inductive Plain : Json → Prop
  | null : Plain null
  | bool (b : Bool) : Plain (bool b)
  | number {x : Float} (finite : x.isFinite = true) (unsigned : Binary64.unsigned x = x) : Plain (number x)
  | string (s : String) : Plain (string s)
  | array {items : List Json} (h : ∀ j ∈ items, Plain j) : Plain (array items)
  | object {members : List (String × Json)} (h : ∀ m ∈ members, Plain m.2) : Plain (object members)

/-- The kind of the values whose texts begin with a character. -/
def leadKind (c : Char) : String :=
  if c = 'n' then "null" else if c = 't' ∨ c = 'f' then "boolean" else if c = '"' then "string"
  else if c = '[' then "array" else if c = '\x7b' then "object" else if Shortest.isNumeral c then "number" else ""

theorem leadKind_numeral (h : isNumeral c = true) : leadKind c = "number" := by
  have hne : ∀ d, isNumeral d = false → c ≠ d := by
    rintro d hd rfl
    rw [h] at hd
    cases hd
  rw [leadKind, if_neg (hne _ rfl), if_neg (not_or.2 ⟨hne _ rfl, hne _ rfl⟩), if_neg (hne _ rfl), if_neg (hne _ rfl),
    if_neg (hne _ rfl), if_pos h]

theorem render_cons (h : Plain j) : ∃ c rest, j.render = c :: rest ∧ leadKind c = j.kind := by
  cases h with
  | null => exact ⟨_, _, rfl, rfl⟩
  | bool b =>
    cases b with
    | false => exact ⟨_, _, rfl, rfl⟩
    | true => exact ⟨_, _, rfl, rfl⟩
  | number finite unsigned =>
    obtain ⟨c, rest, hc⟩ := exists_cons_of_ne_nil (numeral_text finite).1
    exact ⟨c, rest, hc, leadKind_numeral ((numeral_text finite).2 c (hc ▸ mem_cons_self))⟩
  | string s =>
    refine ⟨'"', s.toList.flatMap Text.escape ++ ['"'], ?_, rfl⟩
    rw [render, Text.quote, String.toList_ofList, cons_append]
  | array h => exact ⟨_, _, rfl, rfl⟩
  | object h => exact ⟨_, _, rfl, rfl⟩

/-! ### Unique reading -/

/-- A text is told apart from the texts of a family, whatever comes after. -/
def Separates {α : Type} (f : α → List Char) (x y : α) : Prop :=
  ∀ r r', Follows r → Follows r' → f x ++ r = f y ++ r' → x = y ∧ r = r'

/-- What comes after the first of several texts: the closing bracket, or a separator and the other texts. -/
def afterFirst (close : Char) (ts : List (List Char)) (r : List Char) : List Char :=
  if ts.isEmpty then close :: r else ',' :: ([','].intercalate ts ++ close :: r)

theorem intercalate_cons_append (close : Char) (t : List Char) (ts : List (List Char)) (r : List Char) :
    [','].intercalate (t :: ts) ++ close :: r = t ++ afterFirst close ts r := by
  cases ts with
  | nil => simp [afterFirst]
  | cons u us => simp [afterFirst, intercalate_cons_cons]

theorem follows_afterFirst (hclose : close = ']' ∨ close = '\x7d') (ts : List (List Char)) (r : List Char) :
    Follows (afterFirst close ts r) := by
  unfold afterFirst
  split
  · rintro c ⟨⟩
    exact .inr (.inr hclose)
  · rintro c ⟨⟩
    exact .inr (.inl rfl)

/-- Texts between brackets are told apart if each of them is and none begins with the closing bracket. -/
theorem intercalate_inj {α : Type} {f : α → List Char} (hclose : close = ']' ∨ close = '\x7d') {xs ys : List α}
    (hlead : ∀ x ∈ xs ++ ys, ∃ c rest, f x = c :: rest ∧ c ≠ close) (hsep : ∀ x ∈ xs, ∀ y ∈ ys, Separates f x y)
    (h : [','].intercalate (xs.map f) ++ close :: r = [','].intercalate (ys.map f) ++ close :: r') :
    xs = ys ∧ r = r' := by
  induction xs generalizing ys with
  | nil =>
    cases ys with
    | nil => exact ⟨rfl, by simpa using h⟩
    | cons y ys =>
      obtain ⟨c, rest, hc, hne⟩ := hlead y (by simp)
      rw [map_cons, intercalate_cons_append, hc] at h
      exact absurd (List.cons.inj h).1.symm hne
  | cons x xs ih =>
    cases ys with
    | nil =>
      obtain ⟨c, rest, hc, hne⟩ := hlead x (by simp)
      rw [map_cons, intercalate_cons_append, hc] at h
      exact absurd (List.cons.inj h).1 hne
    | cons y ys =>
      rw [map_cons, map_cons, intercalate_cons_append, intercalate_cons_append] at h
      obtain ⟨rfl, hrest⟩ := hsep x mem_cons_self y mem_cons_self _ _ (follows_afterFirst hclose _ _)
        (follows_afterFirst hclose _ _) h
      have hcomma : close ≠ ',' := by rcases hclose with rfl | rfl <;> decide
      cases xs with
      | nil =>
        cases ys with
        | nil => exact ⟨rfl, (List.cons.inj hrest).2⟩
        | cons y ys => exact absurd (List.cons.inj hrest).1 hcomma
      | cons x' xs =>
        cases ys with
        | nil => exact absurd (List.cons.inj hrest).1.symm hcomma
        | cons y ys =>
          obtain ⟨hxy, hr⟩ := ih (fun z hz => hlead z (by simp at hz ⊢; tauto))
            (fun z hz w hw => hsep z (mem_cons_of_mem _ hz) w (mem_cons_of_mem _ hw)) (List.cons.inj hrest).2
          exact ⟨by rw [hxy], hr⟩

theorem separates_member {m n : String × Json} (h : Separates render m.2 n.2) : Separates renderMember m n := by
  intro r r' hr hr' heq
  simp only [renderMember, append_assoc, cons_append] at heq
  obtain ⟨hkey, hvalue⟩ := Text.quote_inj heq
  obtain ⟨hjson, hrest⟩ := h r r' hr hr' (List.cons.inj hvalue).2
  exact ⟨Prod.ext hkey hjson, hrest⟩

theorem renderMember_cons (m : String × Json) : ∃ c rest, renderMember m = c :: rest ∧ c ≠ '\x7d' := by
  rw [renderMember, Text.quote, String.toList_ofList]
  exact ⟨'"', _, rfl, by decide⟩

theorem render_cons_ne_bracket (h : Plain j) : ∃ c rest, j.render = c :: rest ∧ c ≠ ']' := by
  obtain ⟨c, rest, hc, hk⟩ := render_cons h
  refine ⟨c, rest, hc, ?_⟩
  rintro rfl
  cases h <;> simp [leadKind, kind, isNumeral] at hk

theorem kind_eq_of_render (h : Plain j) (h' : Plain j') (heq : j.render ++ r = j'.render ++ r') : j.kind = j'.kind := by
  obtain ⟨c, rest, hc, hk⟩ := render_cons h
  obtain ⟨c', rest', hc', hk'⟩ := render_cons h'
  rw [hc, hc'] at heq
  rw [← hk, ← hk', (List.cons.inj heq).1]

/-- **No text of a value is the beginning of another**: up to a separator or a closing bracket, it determines the
value. -/
theorem separates_render (h : Plain j) (h' : Plain j') : Separates render j j' := by
  intro r r' hr hr' heq
  have hkind := kind_eq_of_render h h' heq
  induction h generalizing j' r r' with
  | null =>
    cases h' with
    | null => exact ⟨rfl, append_cancel_left heq⟩
    | _ => simp [kind] at hkind
  | bool b =>
    cases h' with
    | bool b' =>
      cases b <;> cases b' <;> first | exact ⟨rfl, append_cancel_left heq⟩ | simp [render] at heq
    | _ => simp [kind] at hkind
  | number finite unsigned =>
    cases h' with
    | number finite' unsigned' =>
      have hread := Shortest.numberText_text finite hr
      rw [render, render] at heq
      rw [heq, Shortest.numberText_text finite' hr', unsigned, unsigned'] at hread
      cases hread
      exact ⟨rfl, rfl⟩
    | _ => simp [kind] at hkind
  | string s =>
    cases h' with
    | string s' =>
      obtain ⟨hs, hrest⟩ := Text.quote_inj heq
      exact ⟨by rw [hs], hrest⟩
    | _ => simp [kind] at hkind
  | @array items h ih =>
    cases h' with
    | @array items' h' =>
      simp only [render, renderItems_eq, cons_append, append_assoc, nil_append, List.cons.injEq, true_and] at heq
      have hlead : ∀ j ∈ items ++ items', ∃ c rest, j.render = c :: rest ∧ c ≠ ']' := fun j hj =>
        render_cons_ne_bracket ((mem_append.1 hj).elim (h j) (h' j))
      have hsep : ∀ j ∈ items, ∀ j' ∈ items', Separates render j j' := fun j hj j' hj' r r' hr hr' heq =>
        ih j hj (h' j' hj') r r' hr hr' heq (kind_eq_of_render (h j hj) (h' j' hj') heq)
      obtain ⟨hitems, hrest⟩ := intercalate_inj (.inl rfl) hlead hsep heq
      exact ⟨by rw [hitems], hrest⟩
    | _ => simp [kind] at hkind
  | @object members h ih =>
    cases h' with
    | @object members' h' =>
      simp only [render, renderMembers_eq, cons_append, append_assoc, nil_append, List.cons.injEq, true_and] at heq
      have hsep : ∀ m ∈ members, ∀ n ∈ members', Separates renderMember m n := fun m hm n hn =>
        separates_member fun r r' hr hr' heq =>
          ih m hm (h' n hn) r r' hr hr' heq (kind_eq_of_render (h m hm) (h' n hn) heq)
      obtain ⟨hmembers, hrest⟩ := intercalate_inj (.inr rfl) (fun m _ => renderMember_cons m) hsep heq
      exact ⟨by rw [hmembers], hrest⟩
    | _ => simp [kind] at hkind

end Json

end OpGraph
