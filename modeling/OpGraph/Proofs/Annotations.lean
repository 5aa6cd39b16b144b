import OpGraph.Proofs.Compilation
import OpGraph.Proofs.Lowering.Bindings

/-!
Classes of type annotations. No type is one of attributes and one of graph values, and what is read off a type follows its
class. Only parameters with a type of attributes are bound as attributes, so a constant can be made of every one of them.
-/

namespace OpGraph

open List

namespace DeclaredType

variable {t : DeclaredType}

theorem isValue_of_isAttr (h : t.isAttr) : t.isValue = false := by
  cases t with
  | scalar => rfl
  | sequence of =>
    cases of with
    | scalar => rfl
    | _ => cases h
  | _ => cases h

theorem constantName?_of_isAttr (h : t.isAttr) : ∃ name, t.attributeType.constantName? = some name := by
  cases t with
  | scalar t => cases t <;> exact ⟨_, rfl⟩
  | sequence of =>
    cases of with
    | scalar t =>
      cases t with
      | bool => cases h
      | _ => exact ⟨_, rfl⟩
    | _ => cases h
  | _ => cases h

theorem isSome_ofDeclared? (t : DeclaredType) : (Interchange.ValueType.ofDeclared? t).isSome = t.isValue := by
  fun_induction isValue t <;> simp_all [Interchange.ValueType.ofDeclared?]

theorem allValid_iff {ts : List DeclaredType} : allValid ts ↔ ∀ t ∈ ts, t.isValid := by
  induction ts with
  | nil => simp [allValid]
  | cons t ts ih => simp [allValid, ih]

theorem isValid_iff (t : DeclaredType) :
    t.isValid ↔ t.isAttr ∨ t.isValue ∨ ∃ ts, t = tuple ts ∧ ∀ t ∈ ts, t.isValid := by
  cases t with
  | tuple ts => simp [isValid, isAttr, isValue, allValid_iff]
  | _ => simp [isValid]

end DeclaredType

namespace Lowering

variable {α β : Type}

/-- With a scope open, the steps can fail only for want of a default operator set. -/
def Ready (m : Lower α) : Prop :=
  ∀ env s, s.scopes ≠ [] → ∃ t,
    (∃ a, outcome m env s = (.ok a, t) ∧ t.scopes ≠ [] ∧ t.defaultOpset = s.defaultOpset) ∨
    s.defaultOpset = none ∧ outcome m env s = (.error ⟨.lowering .noDefaultOpset, none⟩, t)

theorem Ready.bind {m : Lower α} {f : α → Lower β} (hm : Ready m) (hf : ∀ a, Ready (f a)) : Ready (m >>= f) := by
  intro env s hs
  rw [outcome_bind]
  obtain ⟨t, ⟨a, hrun, ht, hopset⟩ | ⟨hnone, hrun⟩⟩ := hm env s hs
  · rw [hrun, ← hopset]
    exact hf a env t ht
  · rw [hrun]
    exact ⟨t, .inr ⟨hnone, rfl⟩⟩

theorem ready_fresh (name : String) : Ready (fresh name) :=
  fun _ _ hs => ⟨_, .inl ⟨_, rfl, hs, rfl⟩⟩

theorem ready_pure (a : α) : Ready (pure a) :=
  fun _ _ hs => ⟨_, .inl ⟨_, rfl, hs, rfl⟩⟩

theorem ready_emitDefault (outputs : List String) (name : String) (inputs : List String)
    (attributes : List NodeAttribute) : Ready (emitDefault outputs name inputs attributes) := by
  refine .bind (.bind (fun env s hs => ?_) fun _ => ready_pure _) fun op env s hs => ?_
  · unfold requireDefaultOpset
    rw [outcome_get_bind]
    split
    · exact ⟨_, .inl ⟨_, rfl, hs, rfl⟩⟩
    · exact ⟨_, .inr ⟨‹_›, rfl⟩⟩
  · unfold emit modifyFunction
    rw [outcome_get_bind]
    obtain ⟨scope, scopes, hcons⟩ := exists_cons_of_ne_nil hs
    rw [hcons]
    exact ⟨_, .inl ⟨_, rfl, cons_ne_nil _ _, rfl⟩⟩

theorem ready_attributeValue {t : DeclaredType} (h : t.isAttr) (param candidate : String) (pos : Position) :
    Ready (attributeValue param t candidate pos) := by
  obtain ⟨attr, hattr⟩ := t.constantName?_of_isAttr h
  unfold attributeValue
  rw [hattr]
  refine .bind (ready_fresh _) fun name => .bind (ready_emitDefault _ _ _ _) fun _ => ?_
  split
  · exact .bind (ready_fresh _) fun _ => .bind (ready_emitDefault _ _ _ _) fun _ => ready_pure _
  · exact ready_pure _

end Lowering

namespace Compiler

open Lowering

/-- **Classes of annotations.** No type, of any depth, is both one of attributes and one of graph values. A type of
attributes has a kind of attribute, and a constant can hold one. The types that a graph states are those of graph values;
the valid ones are these, those of attributes, and tuples of valid ones. In any function, only names with a type of
attributes stand for attributes, so a graph value is made of each one, unless there is no default operator set to do so. -/
theorem annotation_classes :
    (∀ t : DeclaredType, ¬(t.isAttr ∧ t.isValue) ∧
      (t.isAttr → t.attributeType ≠ .undefined ∧ ∃ name, t.attributeType.constantName? = some name) ∧
      ((Interchange.ValueType.ofDeclared? t).isSome ↔ t.isValue) ∧
      (t.isValid ↔ t.isAttr ∨ t.isValue ∨ ∃ ts, t = .tuple ts ∧ ∀ t ∈ ts, t.isValid)) ∧
    ∀ {c : Compiler} {fn : FunctionDef Unit} {task : Task} {s s' : State} {kinds : List ScopeKind} {h : Held},
      Reaches (c.start fn).1 (c.start fn).2 fn.analyze task s kinds → Computes False s {} s' h →
      ∀ x param type, s'.scopes.lookup x = some (.attr param type) → type.isAttr ∧ ∀ name pos, ∃ t,
        (∃ value, outcome (operandOf (.attr param type) name pos) (c.start fn).1 s' = (.ok value, t)) ∨
        s'.defaultOpset = none ∧ outcome (operandOf (.attr param type) name pos) (c.start fn).1 s' =
          (.error ⟨.lowering .noDefaultOpset, none⟩, t) := by
  refine ⟨fun t => ⟨fun h => ?_, fun ha => ?_, by rw [t.isSome_ofDeclared?], t.isValid_iff⟩, ?_⟩
  · rw [DeclaredType.isValue_of_isAttr h.1] at h
    cases h.2
  · obtain ⟨name, hname⟩ := DeclaredType.constantName?_of_isAttr ha
    exact ⟨fun hundefined => by simp [hundefined, AttributeType.constantName?] at hname, name, hname⟩
  · intro c fn task s s' kinds h r g x param type hx
    have hopened := (r.nested_of rfl).good.opened
    have hl := (r.legit rfl).computes hopened g
    cases hl.lookup hx with
    | attr typed =>
      refine ⟨typed, fun name pos => ?_⟩
      obtain ⟨t, hvalue | hnone⟩ := ready_attributeValue typed param name pos (c.start fn).1 s' (g.opened hopened)
      · obtain ⟨value, hvalue, -⟩ := hvalue
        exact ⟨t, .inl ⟨value, hvalue⟩⟩
      · exact ⟨t, .inr hnone⟩

/-- `def f(x, flag: bool)`, which returns the flag. -/
def flagDef : FunctionDef Unit :=
  ⟨"f", [⟨default, "x", none⟩, ⟨default, "flag", some (.name default "bool")⟩], [],
    [.ret ⟨default, ()⟩ (some (.name default "flag"))], none⟩

def flagModule : Compiler :=
  { globals := [("bool", .type none (.scalar .bool))], module := sampleModule.module, defaultOpset := sampleModule.module }

def isFlag : Option Binding → Bool
  | some (.attr _ (.scalar .bool)) => true
  | _ => false

theorem annotation_classes_sample : ∃ task s param, Reaches (flagModule.start flagDef).1 (flagModule.start flagDef).2
    flagDef.analyze task s [.function] ∧ s.scopes.lookup "flag" = some (.attr param (.scalar .bool)) ∧
    ∀ name pos, ∃ value t, outcome (operandOf (.attr param (.scalar .bool)) name pos) (flagModule.start flagDef).1 s =
      (.ok value, t) := by
  have hreach : ∃ task s, Reaches (flagModule.start flagDef).1 (flagModule.start flagDef).2 flagDef.analyze task s
      [.function] ∧ isFlag (s.scopes.lookup "flag") ∧ s.defaultOpset.isSome := by
    refine ⟨_, _, .start (returns_of_isSome ?_) (returns_of_isSome ?_), ?_⟩
    all_goals decide +kernel
  obtain ⟨task, s, r, hflag, hopset⟩ := hreach
  unfold isFlag at hflag
  split at hflag
  · rename_i param hx
    refine ⟨task, s, param, r, hx, fun name pos => ?_⟩
    obtain ⟨t, ⟨value, hvalue⟩ | ⟨hnone, -⟩⟩ := (annotation_classes.2 r (.refl False s {}) "flag" param _ hx).2 name pos
    · exact ⟨value, t, hvalue⟩
    · simp [hnone] at hopset
  · cases hflag

end Compiler

end OpGraph
