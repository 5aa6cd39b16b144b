import OpGraph.Proofs.Compilation
import OpGraph.Proofs.Assertions.Statements

/-!
Functions are compiled in isolation: what was compiled before, and whether it succeeded, makes no difference to what a
function is compiled to, once there is a default operator set. Of a lowering only the messages and the default operator
set outlive it; the first are not looked at, and the second does not change.
-/

namespace OpGraph

namespace Compiler

open Lowering

variable {t u : Compiler}

/-- Two compilers that differ in their messages and in the functions of the module only. -/
structure Agrees (t u : Compiler) : Prop where
  globals : u.globals = t.globals
  domain : u.module.domain = t.module.domain
  version : u.module.version = t.module.version
  defaultOpset : u.defaultOpset = t.defaultOpset
  source : u.source = t.source
  verbose : u.verbose = t.verbose

theorem Agrees.refl (t : Compiler) : t.Agrees t :=
  ⟨rfl, rfl, rfl, rfl, rfl, rfl⟩

theorem Agrees.trans {v : Compiler} (h : t.Agrees u) (h' : u.Agrees v) : t.Agrees v where
  globals := h'.globals.trans h.globals
  domain := h'.domain.trans h.domain
  version := h'.version.trans h.version
  defaultOpset := h'.defaultOpset.trans h.defaultOpset
  source := h'.source.trans h.source
  verbose := h'.verbose.trans h.verbose

/-- The outcome of lowering a function when there are no messages yet. -/
def lowered (t : Compiler) (fn : FunctionDef Unit) : Except Error GraphFunction × State :=
  outcome (Lowering.function fn.analyze) (t.start fn).1 { (t.start fn).2 with diagnostics := [], log := [] }

/-- Messages that are there already stay, and make no other difference. -/
theorem outcome_start (t : Compiler) (fn : FunctionDef Unit) :
    outcome (Lowering.function fn.analyze) (t.start fn).1 (t.start fn).2 =
      ((t.lowered fn).1, (t.lowered fn).2.after t.diagnostics t.log) := by
  have h := (keeps_function fn.analyze : Keeps .any (t.start fn).1 _ _ _).messages
    { (t.start fn).2 with diagnostics := [], log := [] } t.diagnostics t.log
  have hstart : State.after { (t.start fn).2 with diagnostics := [], log := [] } t.diagnostics t.log =
      (t.start fn).2 := by
    simp [State.after, start]
  rwa [hstart] at h

theorem compile_function (t : Compiler) (m : Mark Unit) (fn : FunctionDef Unit) :
    (t.compile (.function m fn)).1 = (t.lowered fn).1.map (fun graph =>
        ⟨t.module.domain, t.module.version, graph, (t.lowered fn).2.diagnostics⟩) ∧
      t.Agrees { (t.compile (.function m fn)).2 with defaultOpset := t.defaultOpset } ∧
      (t.compile (.function m fn)).2.defaultOpset = (t.lowered fn).2.defaultOpset ∧
      (t.compile (.function m fn)).2.diagnostics = t.diagnostics ++ (t.lowered fn).2.diagnostics ∧
      (t.compile (.function m fn)).2.log = t.log ++ (t.lowered fn).2.log := by
  have hrun := t.outcome_start fn
  unfold outcome at hrun
  unfold compile
  dsimp only
  rw [hrun]
  cases (t.lowered fn).1 with
  | error e => exact ⟨rfl, ⟨rfl, rfl, rfl, rfl, rfl, rfl⟩, rfl, rfl, rfl⟩
  | ok graph =>
    refine ⟨?_, ⟨rfl, rfl, rfl, rfl, rfl, rfl⟩, rfl, rfl, rfl⟩
    simp [State.after, Except.map]

theorem Agrees.lowered (h : t.Agrees u) (fn : FunctionDef Unit) : u.lowered fn = t.lowered fn := by
  unfold Compiler.lowered start
  rw [h.globals, h.domain, h.version, h.defaultOpset, h.source, h.verbose]

theorem defaultOpset_lowered (ht : t.defaultOpset.isSome) (fn : FunctionDef Unit) :
    (t.lowered fn).2.defaultOpset = t.defaultOpset := by
  have hor : t.defaultOpset.or (Stmt.firstDefaultOpset? t.globals fn.body) = t.defaultOpset := by
    obtain ⟨o, ho⟩ := Option.isSome_iff_exists.1 ht
    rw [ho]
    rfl
  refine Eq.trans (((keeps_function fn.analyze : Keeps .any (t.start fn).1 _ _ _).opset _).eq_of_isSome ?_) hor
  change (t.defaultOpset.or _).isSome
  rwa [hor]

/-- The compiler after statements were compiled one after the other, each whether or not those before it failed. -/
def after (t : Compiler) (before : List (Stmt Unit)) : Compiler :=
  before.foldl (fun t s => (t.compile s).2) t

theorem Agrees.compile (h : t.Agrees u) (s : Stmt Unit) :
    (u.compile s).1 = (t.compile s).1 ∧ ∃ ws es,
      (u.compile s).2.diagnostics = u.diagnostics ++ ws ∧ (t.compile s).2.diagnostics = t.diagnostics ++ ws ∧
      (u.compile s).2.log = u.log ++ es ∧ (t.compile s).2.log = t.log ++ es := by
  cases s with
  | function m fn =>
    obtain ⟨ht, -, -, htw, hte⟩ := t.compile_function m fn
    obtain ⟨hu, -, -, huw, hue⟩ := u.compile_function m fn
    rw [h.lowered] at hu huw hue
    rw [h.domain, h.version] at hu
    exact ⟨hu.trans ht.symm, _, _, huw, htw, hue, hte⟩
  | _ => exact ⟨rfl, [], [], by simp [Compiler.compile]⟩

def failingSource : String :=
  "def f(c, x):\n" ++
  "    y = op.Abs(x)\n" ++
  "    if c:\n" ++
  "        while c:\n" ++
  "            y = op.Neg(y)\n" ++
  "            c = missing\n" ++
  "    return y\n"

theorem exists_of_parseScript (source : String) (P : Stmt Unit → Prop) [DecidablePred P]
    (h : (match Syntax.parseScript source with
      | .ok [s] => decide (P s)
      | _ => false) = true) : ∃ s, Syntax.parseScript source = .ok [s] ∧ P s := by
  split at h
  · exact ⟨_, ‹_›, of_decide_eq_true h⟩
  · cases h

/-- **A failure leaves the module as it was**: no function is registered, and a default operator set stays. If there is none,
the one that the function is found to use outlives the failure. -/
theorem failure_keeps_module {t : Compiler} {m : Mark Unit} {fn : FunctionDef Unit} {e : Error}
    (h : (t.compile (.function m fn)).1 = .error e) :
    let t' := (t.compile (.function m fn)).2
    t'.module = t.module ∧ t'.globals = t.globals ∧ (t.defaultOpset.isSome → t'.defaultOpset = t.defaultOpset) ∧
      (t'.defaultOpset = t.defaultOpset.or (Stmt.firstDefaultOpset? t.globals fn.body) ∨
        t.defaultOpset = none ∧ Stmt.firstDefaultOpset? t.globals fn.body = none ∧
          ∃ o ∈ t'.defaultOpset, o.isDefaultDomain) := by
  obtain ⟨hresult, hagrees, hdefault, -, -⟩ := t.compile_function m fn
  have hchosen := (keeps_function fn.analyze : Keeps .any (t.start fn).1 _ _ _).opset
    { (t.start fn).2 with diagnostics := [], log := [] }
  dsimp only
  rw [hdefault]
  refine ⟨?_, hagrees.globals, fun ht => defaultOpset_lowered ht fn, hchosen.imp_right fun hnone => ?_⟩
  · -- the result decides whether the function is registered
    unfold compile at h ⊢
    dsimp only at h ⊢
    rcases hrun : ((Lowering.function fn.analyze).run (t.start fn).1).run.run (t.start fn).2 with ⟨e' | graph, state⟩
    · rfl
    · rw [hrun] at h
      cases h
  · obtain ⟨hnone, hchosen⟩ := hnone
    exact ⟨(Option.or_eq_none_iff.1 hnone).1, (Option.or_eq_none_iff.1 hnone).2, hchosen⟩

theorem failure_keeps_module_sample : ∃ m fn e, Syntax.parseScript failingSource = .ok [.function m fn] ∧
    (sampleModule.compile (.function m fn)).1 = .error e ∧
    (sampleModule.compile (.function m fn)).2.module = sampleModule.module := by
  obtain ⟨s, hparse, hlabel, hfails⟩ := exists_of_parseScript failingSource
    (fun s => s.label = "FunctionDef" ∧ (sampleModule.compile s).1.toOption.isNone) (by decide +kernel)
  cases s with
  | function m fn =>
    cases he : (sampleModule.compile (.function m fn)).1 with
    | error e => exact ⟨m, fn, e, hparse, he, (failure_keeps_module he).1⟩
    | ok f => simp [he, Except.toOption] at hfails
  | _ => simp [Stmt.label] at hlabel

/-- The default operator set of a function that fails outlives it. -/
theorem failure_sets_default_opset : ∃ bad, Syntax.parseScript failingSource = .ok [bad] ∧
    (sampleModule.compile bad).1.toOption.isNone ∧ sampleModule.defaultOpset.isNone ∧
    (sampleModule.compile bad).2.defaultOpset.isSome :=
  exists_of_parseScript failingSource _ (by decide +kernel)

end Compiler

end OpGraph
