import OpGraph.Proofs.Syntax.Parsing
import OpGraph.Proofs.Syntax.Places

/-!
Texts that are no scripts. Every text is a script or is refused, and the error tells what is wrong and where in the text:
the lexer places its own errors and the tokens, and the parser places its errors at tokens. What is left are numbers
with a base mark: the lexer takes them with any digits, and their value is asked for only by the parser.
-/

namespace OpGraph.Syntax

open List
open Source (Inside TabbedMargin PastBackslash Placed)

/-! ### Numbers without a value -/

/-- A number with a base mark that has no digits, or one that does not belong to the base. -/
def Misspelt (text : String) : Prop :=
  ∃ mark base ds, text.toList.filter (· ≠ '_') = '0' :: mark :: ds ∧ baseOfMark mark = some base ∧
    (ds = [] ∨ ∃ d ∈ ds, ∀ v, Json.hexValue d = some v → base ≤ v)

theorem exists_of_natOfBase {base : ℕ} {ds : List Char} (h : natOfBase base ds = none) :
    ds = [] ∨ ∃ d ∈ ds, ∀ v, Json.hexValue d = some v → base ≤ v := by
  unfold natOfBase at h
  split at h
  · exact .inl (List.isEmpty_iff.1 ‹_›)
  · right
    generalize 0 = n at h
    induction ds generalizing n with
    | nil => cases h
    | cons d ds ih =>
      rw [foldlM_cons] at h
      by_cases hd : ∀ v, Json.hexValue d = some v → base ≤ v
      · exact ⟨d, mem_cons_self, hd⟩
      · push Not at hd
        obtain ⟨v, hv, hlt⟩ := hd
        rw [hv, Option.bind_some, if_pos hlt] at h
        cases ds with
        | nil => cases h
        | cons d' ds =>
          obtain ⟨x, hx, hbad⟩ := ih (by simp) _ h
          exact ⟨x, mem_cons_of_mem _ hx, hbad⟩

theorem misspelt_of_numberValue {text : String} {e : Error} (h : numberValue text = .error e) :
    Misspelt text ∧ ∃ literal, e = ⟨.digits literal, none⟩ := by
  unfold numberValue at h
  dsimp only at h
  split at h
  · rename_i base ds hbased
    split at h
    · cases h
    · rename_i hvalue
      refine ⟨?_, _, (Except.error.inj h).symm⟩
      split at hbased
      · rename_i mark ds' htext
        obtain ⟨b, hb, hpair⟩ := Option.map_eq_some_iff.1 hbased
        obtain ⟨rfl, rfl⟩ := Prod.mk.inj hpair
        exact ⟨mark, b, ds', htext, hb, exists_of_natOfBase hvalue⟩
      · cases hbased
  · split at h <;> cases h

/-! ### Tokens -/

theorem placed_finish {text rest : List Char} {st : Lexer.State} (h : Lexer.Situated text st rest) :
    ∀ t ∈ Lexer.finish st, Placed text t.pos := by
  intro t ht
  simp only [Lexer.finish, mem_append, mem_reverse, mem_map, mem_singleton] at ht
  rcases ht with ((ht | ht) | ⟨_, -, rfl⟩) | rfl
  · exact h.tokens t ht
  · have hpos : t.pos = st.pos := by
      split at ht
      · cases ht
      · cases ht
      · cases ht
      · rw [mem_singleton.1 ht]
    exact .inl (hpos ▸ h.inside)
  · exact .inl h.inside.lineStart
  · exact .inl h.inside

theorem placed_of_tokenize {source : String} {ts : List Token} (h : tokenize source = .ok ts) :
    Parser.Ended ts ∧ ∀ t ∈ ts, Placed (Source.normalize source.toList) t.pos := by
  obtain ⟨ps, st, hreads, rfl⟩ := Lexer.reads_of_tokenize h
  exact ⟨ended_finish st, placed_finish (Lexer.situated_start.of_reads hreads)⟩

theorem refuses_of_tokenize {source : String} {e : Error} (h : tokenize source = .error e) :
    Lexer.Refuses (Source.normalize source.toList) e := by
  unfold tokenize at h
  dsimp only at h
  cases hrun : Lexer.run (Source.normalize source.toList).length {} (Source.normalize source.toList) with
  | error e' =>
    rw [hrun] at h
    obtain rfl := Except.error.inj h
    obtain ⟨ps, st, rest, hreads, hstuck⟩ := (Lexer.ends_run le_rfl).2 e' hrun
    exact (Lexer.situated_start.of_reads hreads).refuses hstuck
  | ok st =>
    rw [hrun] at h
    cases h

/-- **Every text is a script or is refused.** The error of a text that is refused has a code and a place on a line of the
text, at most just after it; but the column of an indentation with tabs is its width, and a string that ends with the
text in a backslash is reported one column further. The only other error is that of a number with a base mark whose
digits do not fit. -/
theorem script_or_refused (source : String) :
    (∃ script, parseScript source = .ok script) ∨
    (∃ f p, parseScript source = .error ⟨.script f, some p.location⟩ ∧ f ≠ .tooDeep ∧
      (f.code = .syntaxError ∨ f.code = .unsupportedConstruct) ∧
      (Inside (Source.normalize source.toList) p ∨ TabbedMargin (Source.normalize source.toList) p ∨
        f = .unterminatedString ∧ PastBackslash (Source.normalize source.toList) p)) ∨
    ∃ ts t literal, tokenize source = .ok ts ∧ t ∈ ts ∧ t.kind = .number ∧ Misspelt t.text ∧
      parseScript source = .error ⟨.digits literal, none⟩ := by
  have hcode : ∀ f : SyntaxFault, f.code = .syntaxError ∨ f.code = .unsupportedConstruct := by
    intro f
    cases f <;> simp [SyntaxFault.code]
  cases hts : tokenize source with
  | error e =>
    have hparse : parseScript source = .error e := by rw [parseScript, hts]; rfl
    rw [hparse]
    cases refuses_of_tokenize hts with
    | inside hf hp => exact .inr (.inl ⟨_, _, rfl, hf, hcode _, .inl hp⟩)
    | backslash hp => exact .inr (.inl ⟨_, _, rfl, by simp, hcode _, .inr (.inr ⟨rfl, hp⟩)⟩)
  | ok ts =>
    obtain ⟨hended, hplaced⟩ := placed_of_tokenize hts
    have hparse : parseScript source = (Parser.statements (ts.length + 1)).run ts >>= fun r => pure r.1 := by
      rw [parseScript, hts]
      rfl
    cases hrun : (Parser.statements (ts.length + 1)).run ts with
    | ok r => exact .inl ⟨r.1, by rw [hparse, hrun]; rfl⟩
    | error e =>
      have herror : parseScript source = .error e := by rw [hparse, hrun]; rfl
      rw [herror]
      cases Parser.justified_of_statements hended hrun with
      | placed hf ht =>
        refine .inr (.inl ⟨_, _, rfl, hf, hcode _, ?_⟩)
        exact (hplaced _ ht).imp_right .inl
      | number ht hk hvalue =>
        obtain ⟨hmisspelt, literal, rfl⟩ := misspelt_of_numberValue hvalue
        exact .inr (.inr ⟨ts, _, literal, rfl, ht, hk, hmisspelt, rfl⟩)

/-- The value of a number is asked for after its digits have been taken, and its error has no code and no place. -/
theorem base_mark_alone_refused : parseScript "x = 0x\n" = .error ⟨.digits "0x", none⟩ := by
  have herror : (match parseScript "x = 0x\n" with
      | .ok _ => none
      | .error e => some e) = some ⟨.digits "0x", none⟩ := by
    decide +kernel
  split at herror
  · cases herror
  · rename_i h
    rw [h, Option.some.inj herror]

end OpGraph.Syntax
