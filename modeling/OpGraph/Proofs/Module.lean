import OpGraph.Module.Compile
import OpGraph.Proofs.ConstantExpressions
import OpGraph.Proofs.Lowering.Runs

/-!
The functions that the names of a script can stand for. Constant expressions make no functions, so a function that a
name is bound to was compiled before, by the script itself or by another one that handed it over.
-/

namespace OpGraph

open List

variable {op : BinaryOp} {name : String} {v w : Value}
variable {o : CompileOptions} {args vs : List Value} {ref : Ref}

/-! ### Functions in values -/

namespace Value

mutual
/-- The functions in a value, those in lists and modules included. -/
def functions : Value → List ScriptFunction
  | function _ f => [f]
  | list _ vs => functionsAll vs
  | module _ _ members => memberFunctions members
  | _ => []
def functionsAll : List Value → List ScriptFunction
  | [] => []
  | v :: vs => v.functions ++ functionsAll vs
def memberFunctions : List (String × Value) → List ScriptFunction
  | [] => []
  | (_, v) :: ms => v.functions ++ memberFunctions ms
end

theorem functionsAll_eq (vs : List Value) : functionsAll vs = vs.flatMap functions := by
  induction vs with
  | nil => rfl
  | cons v vs ih => rw [functionsAll, ih, flatMap_cons]

theorem memberFunctions_eq (ms : List (String × Value)) : memberFunctions ms = ms.flatMap fun m => m.2.functions := by
  induction ms with
  | nil => rfl
  | cons m ms ih => rw [memberFunctions, ih, flatMap_cons]

mutual
theorem IsLiteral.functions_eq : ∀ {v : Value}, v.IsLiteral → v.functions = []
  | list _ vs, h => by rw [functions, functionsAll_of_isLiteral (isLiteral_list.1 h)]
  | none, _ | bool _, _ | int _, _ | float _, _ | str _, _ => rfl
  | opset .., h | op .., h | function .., h | type .., h | generic .., h | builtin .., h | module .., h => by
    obtain ⟨l, hl⟩ := h
    cases hl
theorem functionsAll_of_isLiteral : ∀ {vs : List Value}, (∀ v ∈ vs, v.IsLiteral) → functionsAll vs = []
  | [], _ => rfl
  | v :: vs, h => by
    obtain ⟨hv, hvs⟩ := forall_mem_cons.1 h
    rw [functionsAll, hv.functions_eq, functionsAll_of_isLiteral hvs, append_nil]
end

mutual
theorem functions_stamp (next : ℕ) : ∀ v : Value, (v.stamp next).1.functions = v.functions
  | list ref vs => by simp only [stamp, functions, functions_stampAll next vs]
  | module ref name members => by simp only [stamp, functions, functions_stampMembers next members]
  | none | bool _ | int _ | float _ | str _ | opset .. | op .. | function .. | type .. | generic .. | builtin .. => rfl
theorem functions_stampAll (next : ℕ) : ∀ vs : List Value, functionsAll (stampAll next vs).1 = functionsAll vs
  | [] => rfl
  | v :: vs => by simp only [stampAll, functionsAll, functions_stamp next v, functions_stampAll _ vs]
theorem functions_stampMembers (next : ℕ) : ∀ ms : List (String × Value),
    memberFunctions (stampMembers next ms).1 = memberFunctions ms
  | [] => rfl
  | (name, v) :: ms => by simp only [stampMembers, memberFunctions, functions_stamp next v, functions_stampMembers _ ms]
end

/-- All functions in a value have a property. -/
def Each (P : ScriptFunction → Prop) (v : Value) : Prop :=
  ∀ f ∈ v.functions, P f

variable {P : ScriptFunction → Prop}

theorem each_of_nil (h : v.functions = []) : v.Each P := by
  intro f hf
  rw [h] at hf
  cases hf

theorem each_list : (list ref vs).Each P ↔ ∀ v ∈ vs, v.Each P := by
  unfold Each
  rw [functions, functionsAll_eq]
  simp only [mem_flatMap]
  exact ⟨fun h v hv f hf => h f ⟨v, hv, hf⟩, fun h f ⟨v, hv, hf⟩ => h v hv f hf⟩

theorem each_module {ms : List (String × Value)} : (module ref name ms).Each P ↔ ∀ m ∈ ms, m.2.Each P := by
  unfold Each
  rw [functions, memberFunctions_eq]
  simp only [mem_flatMap]
  exact ⟨fun h m hm f hf => h f ⟨m, hm, hf⟩, fun h f ⟨m, hm, hf⟩ => h m hm f hf⟩

theorem Each.stamp (h : v.Each P) (next : ℕ) : (v.stamp next).1.Each P := by
  unfold Each
  rwa [functions_stamp]

end Value

def Globals.Each (P : ScriptFunction → Prop) (globals : Globals) : Prop :=
  ∀ m ∈ globals, m.2.Each P

variable {P : ScriptFunction → Prop} {globals : Globals}

theorem Globals.Each.get? (h : globals.Each P) (hv : Members.get? globals name = some v) : v.Each P :=
  h _ (Members.mem_of_get? hv)

theorem Globals.Each.set (h : globals.Each P) (hv : v.Each P) (name : String) :
    Globals.Each P (Members.set globals name v) := by
  intro m hm
  rcases Members.mem_of_mem_set hm with hm | ⟨hmv, -⟩
  · exact h m hm
  · rwa [hmv]

/-! ### Evaluation -/

open Value (each_of_nil)

namespace Arithmetic

theorem each_binary {left right : Value} (h : binary op left right = .ok v) (hl : left.Each P) (hr : right.Each P) :
    v.Each P := by
  unfold binary at h
  split at h
  · cases h
    exact each_of_nil rfl
  · cases h
    rw [Value.each_list] at hl hr ⊢
    exact forall_mem_append.2 ⟨hl, hr⟩
  · cases h
    exact each_of_nil rfl
  · cases h
    exact each_of_nil rfl
  · cases h
    exact each_of_nil rfl
  · exact each_of_nil ((gives_onNumerics op left right).of_ok h).functions_eq

end Arithmetic

namespace Evaluation

theorem each_member (hv : v.Each P) (h : member v name = .ok w) : w.Each P := by
  unfold member at h
  split at h
  · cases h
    exact each_of_nil rfl
  · split at h
    · rename_i hget
      cases h
      exact Value.each_module.1 hv _ (Members.mem_of_get? hget)
    · cases h
  · cases h

theorem mem_of_item {i : Int} (h : item vs i = some w) : w ∈ vs := by
  unfold item at h
  generalize (if i < 0 then (vs.length : Int) + i else i) = j at h
  dsimp only at h
  split at h
  · cases h
  · exact mem_of_getElem? h

theorem each_subscript {pos : Position} (hv : v.Each P) (h : subscript pos v args = .ok w) : w.Each P := by
  have htype : ∀ {r : Except Error DeclaredType}, (do return .type none (← r) : Except Error Value) = .ok w →
      w.Each P := by
    intro r h
    cases r with
    | error e => cases h
    | ok t =>
      cases h
      exact each_of_nil rfl
  unfold subscript at h
  split at h
  · exact htype h
  · exact htype h
  · split at h
    · rename_i hitem
      cases h
      exact Value.each_list.1 hv _ (mem_of_item hitem)
    · cases h
  · cases h

theorem functions_callBuiltin {b : Builtin} {keywords : List (String × Value)} (h : callBuiltin b args keywords = .ok v) :
    v.functions = [] := by
  unfold callBuiltin at h
  split at h
  · cases h
    rfl
  · cases h

mutual
theorem each_eval (hg : globals.Each P) : ∀ (e : Expr) {v : Value}, eval globals e = .ok v → v.Each P
  | .constant _ l, v, h => by
    rw [eval] at h
    cases h
    exact each_of_nil (Value.isLiteral_ofLiteral l).functions_eq
  | .name pos id, v, h => by
    rw [eval] at h
    split at h
    · rename_i hget
      cases h
      exact hg.get? hget
    · cases h
  | .list _ es, v, h | .tuple _ es, v, h => by
    rw [eval] at h
    obtain ⟨vs, hvs, h⟩ := bind_eq_ok.1 h
    cases h
    exact Value.each_list.2 (each_evalItems hg es hvs)
  | .binary pos l op r, v, h => by
    rw [eval] at h
    obtain ⟨a, ha, h⟩ := bind_eq_ok.1 h
    obtain ⟨b, hb, h⟩ := bind_eq_ok.1 h
    cases hop : Arithmetic.binary op a b with
    | error e =>
      rw [hop] at h
      cases h
    | ok w =>
      rw [hop] at h
      cases h
      exact Arithmetic.each_binary hop (each_eval hg l ha) (each_eval hg r hb)
  | .unary pos op e, v, h => by
    rw [eval] at h
    obtain ⟨a, -, h⟩ := bind_eq_ok.1 h
    exact each_of_nil ((Arithmetic.gives_unary op pos a).of_ok h).functions_eq
  | .boolean _ op es, v, h => by
    rw [eval] at h
    exact each_evalBoolean hg op es h
  | .compare _ l ops es, v, h => by
    rw [eval] at h
    obtain ⟨a, -, h⟩ := bind_eq_ok.1 h
    exact each_of_nil (functions_evalCompare es ops a h)
  | .attr _ e name, v, h => by
    rw [eval] at h
    obtain ⟨a, ha, h⟩ := bind_eq_ok.1 h
    exact each_member (each_eval hg e ha) h
  | .subscript pos e i, v, h => by
    rw [eval.eq_def] at h
    obtain ⟨a, ha, h⟩ := bind_eq_ok.1 h
    have hbase := each_eval hg e ha
    split at h
    · obtain ⟨args, -, h⟩ := bind_eq_ok.1 h
      exact each_subscript hbase h
    · obtain ⟨arg, -, h⟩ := bind_eq_ok.1 h
      exact each_subscript hbase h
  | .call _ f args keywords, v, h => by
    rw [eval] at h
    obtain ⟨a, -, h⟩ := bind_eq_ok.1 h
    split at h
    · obtain ⟨named, -, h⟩ := bind_eq_ok.1 h
      obtain ⟨vs, -, h⟩ := bind_eq_ok.1 h
      exact each_of_nil (functions_callBuiltin h)
    · cases h
  | .slice pos .., v, h => by
    rw [eval] at h
    cases h
theorem each_evalItems (hg : globals.Each P) : ∀ (es : List Expr) {vs : List Value}, evalItems globals es = .ok vs →
    ∀ v ∈ vs, v.Each P
  | [], vs, h => by
    rw [evalItems] at h
    cases h
    simp
  | e :: es, vs, h => by
    rw [evalItems] at h
    obtain ⟨v, hv, h⟩ := bind_eq_ok.1 h
    obtain ⟨u, -, h⟩ := bind_eq_ok.1 h
    obtain ⟨rest, hrest, h⟩ := bind_eq_ok.1 h
    cases h
    exact forall_mem_cons.2 ⟨each_eval hg e hv, each_evalItems hg es hrest⟩
theorem each_evalBoolean (hg : globals.Each P) (op : BoolOp) : ∀ (es : List Expr) {v : Value},
    evalBoolean globals op es = .ok v → v.Each P
  | [], v, h => by
    rw [evalBoolean] at h
    cases h
    exact each_of_nil rfl
  | [e], v, h => by
    rw [evalBoolean] at h
    exact each_eval hg e h
  | e :: e' :: es, v, h => by
    rw [evalBoolean] at h
    obtain ⟨a, ha, h⟩ := bind_eq_ok.1 h
    split at h
    · cases h
      exact each_eval hg e ha
    · exact each_evalBoolean hg op (e' :: es) h
    · simp
theorem functions_evalCompare : ∀ (es : List Expr) (ops : List CompareOp) (left : Value) {v : Value},
    evalCompare globals left ops es = .ok v → v.functions = []
  | [], ops, left, v, h => by
    rw [evalCompare.eq_def] at h
    split at h
    · rename_i heq
      cases heq
    · cases h
      rfl
  | e :: es, [], left, v, h => by
    rw [evalCompare.eq_def] at h
    cases h
    rfl
  | e :: es, op :: ops, left, v, h => by
    rw [evalCompare] at h
    obtain ⟨right, -, h⟩ := bind_eq_ok.1 h
    obtain ⟨c, -, h⟩ := bind_eq_ok.1 h
    split at h
    · exact functions_evalCompare es ops right h
    · cases h
      rfl
end

end Evaluation

/-! ### The library -/

namespace Library

theorem each_typeNames : typeNames.Each P := by
  intro m hm
  simp only [typeNames, tensorTypes, scalarTypes, genericTypes, mem_append, mem_map] at hm
  obtain (⟨t, -, rfl⟩ | ⟨t, -, rfl⟩) | ⟨t, -, rfl⟩ := hm <;> exact each_of_nil rfl

theorem each_types : types.Each P :=
  Value.each_module.2 each_typeNames

theorem each_opsets (registry : Registry) : Globals.Each P (opsets registry) :=
  forall_mem_map.2 fun _ _ => each_of_nil rfl

theorem each_library (registry : Registry) : (Library.module registry).Each P := by
  refine Value.each_module.2 ?_
  simp only [forall_mem_append]
  refine ⟨⟨each_typeNames, each_opsets registry⟩, ?_⟩
  exact forall_mem_cons.2 ⟨each_of_nil rfl, forall_mem_singleton.2 each_types⟩

end Library

/-! ### Compiled functions -/

/-- Functions that compilation gives. The functions among the names that it starts from were compiled before. -/
inductive Compiled : ScriptFunction → Prop where
  | compile (t : Compiler) (stmt : Stmt Unit) (f : ScriptFunction)
    (globals : ∀ m ∈ t.globals, ∀ g ∈ m.2.functions, Compiled g) (result : (t.compile stmt).1 = .ok f) : Compiled f

namespace Module

/-- The functions that the names of a script stand for, and those that it has given so far, were compiled. -/
structure State.Sound (s : State) : Prop where
  globals : s.compiler.globals.Each Compiled
  library : s.library.Each Compiled
  compiled : ∀ f ∈ s.compiled, Compiled f

/-- Steps of a compilation that keep a state sound, also if they fail, and a promise about their result. -/
def Keeps {α : Type} (m : Compile α) (Q : α → Prop) : Prop :=
  ∀ s : State, s.Sound → (m.run.run s).2.Sound ∧ ∀ a, (m.run.run s).1 = .ok a → Q a

namespace Keeps

variable {α β : Type} {Q : α → Prop} {R : β → Prop}

theorem pure {a : α} (h : Q a) : Keeps (Pure.pure a) Q := by
  intro s hs
  refine ⟨hs, fun b hb => ?_⟩
  obtain rfl : a = b := Except.ok.inj hb
  exact h

theorem throw (e : Error) : Keeps (throw e : Compile α) Q :=
  fun _ hs => ⟨hs, fun _ h => nomatch h⟩

theorem bind {m : Compile α} {f : α → Compile β} (hm : Keeps m Q) (hf : ∀ a, Q a → Keeps (f a) R) :
    Keeps (m >>= f) R := by
  intro s hs
  obtain ⟨ht, hQ⟩ := hm s hs
  have hrun : (m >>= f).run.run s =
      match m.run.run s with
      | (.ok a, t) => (f a).run.run t
      | (.error e, t) => (.error e, t) := by
    rw [ExceptT.run_bind, StateT.run_bind]
    rcases m.run.run s with ⟨_ | _, t⟩ <;> rfl
  rw [hrun]
  rcases hcase : m.run.run s with ⟨e | a, t⟩
  · rw [hcase] at ht
    exact ⟨ht, fun _ h => nomatch h⟩
  · rw [hcase] at ht hQ
    exact hf a (hQ a rfl) t ht

theorem get : Keeps (get : Compile State) State.Sound :=
  fun s hs => ⟨hs, fun t h => by cases h; exact hs⟩

theorem modify {g : State → State} (hg : ∀ s, s.Sound → (g s).Sound) : Keeps (modify g : Compile Unit) fun _ => True :=
  fun s hs => ⟨hg s hs, fun _ _ => trivial⟩

theorem forM {g : α → Compile PUnit} {xs : List α} (h : ∀ x ∈ xs, Keeps (g x) fun _ => True) :
    Keeps (xs.forM g) fun _ => True := by
  induction xs with
  | nil => exact .pure trivial
  | cons x xs ih =>
    rw [forM_eq_forM, forM_cons]
    exact (h x mem_cons_self).bind fun _ _ => ih fun y hy => h y (mem_cons_of_mem _ hy)

end Keeps

theorem keeps_failAt {α : Type} {Q : α → Prop} (f : Fault) (pos : Position) : Keeps (failAt f pos) Q :=
  .throw _

theorem keeps_stamped (hv : v.Each Compiled) : Keeps (stamped v) (Value.Each Compiled) := by
  intro s hs
  refine ⟨⟨hs.globals, hs.library, hs.compiled⟩, fun w hw => ?_⟩
  obtain rfl : (v.stamp s.next).1 = w := Except.ok.inj hw
  exact hv.stamp s.next

theorem keeps_setGlobal (name : String) (hv : v.Each Compiled) : Keeps (setGlobal name v) fun _ => True :=
  (keeps_stamped hv).bind fun _ hw => .modify fun _ hs => ⟨hs.globals.set hw name, hs.library, hs.compiled⟩

theorem keeps_resolve (name : String) (pos : Position) : Keeps (resolve name pos) (Value.Each Compiled) := by
  unfold resolve
  split
  · exact Keeps.get.bind fun s hs => .pure hs.library
  · split
    · exact keeps_stamped Library.each_types
    · exact keeps_failAt _ _

theorem keeps_importModule (pos : Position) (a : Alias) : Keeps (importModule pos a) fun _ => True := by
  refine (keeps_resolve a.name pos).bind fun module hm => Keeps.get.bind fun s hs => keeps_setGlobal _ ?_
  split
  · exact hs.library
  · exact hm

theorem keeps_importMember (module : String) {members : List (String × Value)}
    (hms : ∀ m ∈ members, m.2.Each Compiled) (pos : Position) (a : Alias) :
    Keeps (importMember module members pos a) fun _ => True := by
  unfold importMember
  split
  · exact .forM fun m hm => keeps_setGlobal m.1 (hms m hm)
  · split
    · rename_i hget
      exact keeps_setGlobal _ (hms _ (Members.mem_of_get? hget))
    · exact keeps_failAt _ _

theorem keeps_assignGlobal (pos : Position) (targets : List Expr) (value : Option Expr) :
    Keeps (assignGlobal pos targets value) fun _ => True := by
  unfold assignGlobal
  split
  · refine Keeps.bind (Q := Globals.Each Compiled) (Keeps.get.bind fun s hs => .pure hs.globals) fun g hg => ?_
    split
    · rename_i heval
      exact keeps_setGlobal _ (Evaluation.each_eval hg _ heval)
    · exact .throw _
  · exact keeps_failAt _ _

theorem globals_compile (t : Compiler) (stmt : Stmt Unit) : (t.compile stmt).2.globals = t.globals := by
  cases stmt with
  | function m fn =>
    unfold Compiler.compile
    dsimp only
    rcases ((Lowering.function fn.analyze).run (t.start fn).1).run.run (t.start fn).2 with ⟨_ | _, _⟩ <;> rfl
  | _ => rfl

theorem keeps_defineFunction (stmt : Stmt Unit) : Keeps (defineFunction stmt) fun _ => True := by
  refine Keeps.get.bind fun s hs => ?_
  have hglobals : (s.compiler.compile stmt).2.globals.Each Compiled := by
    rw [globals_compile]
    exact hs.globals
  refine Keeps.bind (.modify fun t ht => ⟨hglobals, ht.library, ht.compiled⟩) fun _ _ => ?_
  split
  · exact .throw _
  · rename_i f hf
    have hcompiled : Compiled f := .compile s.compiler stmt f hs.globals hf
    refine (keeps_setGlobal f.name ?_).bind fun _ _ => .modify fun t ht => ⟨ht.globals, ht.library, ?_⟩
    · exact forall_mem_singleton.2 hcompiled
    · exact forall_mem_append.2 ⟨ht.compiled, forall_mem_singleton.2 hcompiled⟩

theorem keeps_statement (first : Bool) (stmt : Stmt Unit) : Keeps (statement first stmt) fun _ => True := by
  unfold statement
  split
  · exact .forM fun a _ => keeps_importModule _ a
  · refine (keeps_resolve _ _).bind fun module hm => .forM fun a _ => keeps_importMember _ ?_ _ a
    unfold membersOf
    split
    · exact Value.each_module.1 hm
    · simp
  · exact keeps_assignGlobal _ _ _
  · exact keeps_assignGlobal _ _ _
  · exact keeps_defineFunction _
  · exact .pure trivial
  · split
    · exact .pure trivial
    · exact keeps_failAt _ _

theorem keeps_statements : ∀ (ss : List (Stmt Unit)) (first : Bool), Keeps (statements first ss) fun _ => True
  | [], _ => .pure trivial
  | s :: ss, first => (keeps_statement first s).bind fun _ _ => keeps_statements ss false

end Module

theorem Globals.Each.stamp (h : globals.Each P) (next : ℕ) : Globals.Each P (globals.stamp next).1 := by
  have heq := Value.functions_stampMembers next globals
  rw [Value.memberFunctions_eq, Value.memberFunctions_eq] at heq
  intro m hm f hf
  have hmem : f ∈ (Value.stampMembers next globals).1.flatMap fun m => m.2.functions := mem_flatMap.2 ⟨m, hm, hf⟩
  rw [heq] at hmem
  obtain ⟨k, hk, hfk⟩ := mem_flatMap.1 hmem
  exact h k hk f hfk

theorem CompileOptions.sound_start (ho : o.constants.Each Compiled) (source : String) :
    (o.start source).Sound where
  globals := by
    intro m hm
    rcases Members.mem_of_foldl_set hm with hm | hm
    · exact ho.stamp _ m hm
    · exact Globals.Each.stamp Library.each_typeNames _ m hm
  library := (Library.each_library o.registry).stamp 0
  compiled := by simp [start]

/-- **The functions of a script are compiled**, if those among the constants that it is given are. -/
theorem compiled_of_compileScript {source : String} (ho : o.constants.Each Compiled) {script : CompiledScript}
    (h : (compileScript source o).1 = .ok script) : ∀ f ∈ script.functions, Compiled f := by
  unfold compileScript at h
  split at h
  · cases h
  · rename_i ss _
    have hsound := (Module.keeps_statements ss true (o.start source) (o.sound_start ho source)).1
    rcases hrun : (Module.statements true ss).run.run (o.start source) with ⟨e | u, s⟩
    · rw [hrun] at h
      cases h
    · rw [hrun] at h hsound
      cases h
      exact hsound.compiled

end OpGraph
