import OpGraph.Promotion
import OpGraph.Proofs.Results

/-!
Promotion of literals in graphs and on run-time values. Both assign arguments to arguments in the same way, whatever they
know of an argument, so a literal is cast in the graph to the type of a value exactly if it is converted at run time to
the type of the tensor at the same place.
-/

namespace OpGraph.Promotion

open List

/-! ### Arguments of both runs -/

/-- A truth value, a number, or a list that is not empty and has elements of one of these kinds. -/
def IsPlain : Literal → Prop
  | .bool _ | .int _ | .float _ => True
  | .list vs => vs ≠ [] ∧
    ((∀ v ∈ vs, ∃ b, v = .bool b) ∨ (∀ v ∈ vs, ∃ i, v = .int i) ∨ ∀ v ∈ vs, ∃ x, v = .float x)
  | .none | .str _ => False

/-- An argument of a call: a tensor, which has a name in a graph; a literal, with the name of its constant; or nothing. -/
inductive Actual where
  | tensor (name : String) (given : name ≠ "") (t : Tensor)
  | literal (name : String) (v : Literal) (plain : IsPlain v)
  | omitted

namespace Actual

/-- The argument in a graph. -/
def operand : Actual → Operand
  | tensor name _ _ => { name }
  | literal name _ _ => { name, isConst := true }
  | omitted => .omitted

/-- The argument at run time. -/
def argument : Actual → Argument
  | tensor _ _ t => .tensor t
  | literal _ v _ => .literal v
  | omitted => .literal .none

/-- The name and the value of a tensor. -/
def tensor? : Actual → Option (String × Tensor)
  | tensor name _ t => some (name, t)
  | literal .. | omitted => none

theorem operandType_operand (a : Actual) : operandType a.operand = a.tensor?.map fun y => { name := y.1 } := by
  cases a with
  | tensor name given t => simp [operandType, operand, tensor?, given]
  | literal name v plain => rfl
  | omitted => rfl

theorem argumentType_argument (a : Actual) : argumentType a.argument = a.tensor?.map fun y => y.2.dtype := by
  cases a <;> rfl

theorem eq_tensor_of_tensor? {a : Actual} {y : String × Tensor} (h : a.tensor? = some y) :
    ∃ given, a = tensor y.1 given y.2 := by
  cases a with
  | tensor name given t =>
    cases h
    exact ⟨given, rfl⟩
  | literal name v plain => cases h
  | omitted => cases h

end Actual

theorem isPromotable_of_isPlain {v : Literal} (h : IsPlain v) : isPromotable v = true := by
  cases v with
  | bool | int | float => rfl
  | none | str => exact h.elim
  | list vs =>
    cases vs with
    | nil => exact absurd rfl h.1
    | cons v vs =>
      rcases h.2 with h | h | h <;> obtain ⟨x, rfl⟩ := h v mem_cons_self <;> rfl

/-! ### Assignment of arguments to arguments -/

section Assign

variable {α β σ τ : Type} {typeOf : α → Option σ} {typeOf' : β → Option τ} {f : α → β} {g : σ → τ}
  (h : ∀ x, typeOf' (f x) = (typeOf x).map g)
include h

theorem binding?_map (args : List (α × Option String)) (v : String) :
    binding? typeOf' (args.map (Prod.map f id)) v = (binding? typeOf args v).map g := by
  induction args with
  | nil => rfl
  | cons arg args ih =>
    obtain ⟨x, w⟩ := arg
    simp only [binding?, map_cons, findSome?_cons, Prod.map_apply, id_eq] at ih ⊢
    by_cases hw : w = some v
    · rw [if_pos hw, if_pos hw, h x]
      cases typeOf x with
      | none => exact ih
      | some y => rfl
    · rw [if_neg hw, if_neg hw]
      exact ih

/-- **Assignment does not look at what it assigns**: other arguments, with other things known of them, are assigned in the
same way. -/
theorem assign_map (schema : Option (List Formal)) (args : List α) :
    assign typeOf' schema (args.map f) = (assign typeOf schema args).map (List.map (Prod.map f (Option.map g))) := by
  cases schema with
  | none => simp [assign, Except.map, Function.comp_def]
  | some inputs =>
    simp only [assign, length_map]
    cases formals? inputs args.length with
    | none => rfl
    | some formals =>
      have hzip : (args.map f).zip (formals.map typeVariable?) =
          (args.zip (formals.map typeVariable?)).map (Prod.map f id) := by
        rw [zip_map_left]
      simp only [hzip, Except.map, map_map, Except.ok.injEq]
      refine map_congr_left fun ⟨x, v⟩ _ => ?_
      cases v with
      | none => rfl
      | some v => exact congrArg (Prod.mk (f x)) (binding?_map h _ v)

omit h

theorem length_formals {inputs formals : List Formal} {count : ℕ} (h : formals? inputs count = some formals) :
    formals.length = count := by
  unfold formals? at h
  split at h
  · cases h
    rw [length_take]
    omega
  · split at h
    · split at h
      · cases h
        rw [length_append, length_replicate]
        omega
      · cases h
    · cases h

variable {typeOf : α → Option τ} {schema : Option (List Formal)} {args : List α} {pairs : List (α × Option τ)}

theorem fst_of_assign (h : assign typeOf schema args = .ok pairs) : pairs.map Prod.fst = args := by
  unfold assign at h
  split at h
  · cases h
    rw [map_map]
    exact map_id args
  · split at h
    · cases h
    · rename_i formals hformals
      cases h
      rw [map_map]
      refine map_fst_zip ?_
      rw [length_map, length_formals hformals]

theorem exists_of_assign (h : assign typeOf schema args = .ok pairs) {p : α × Option τ} (hp : p ∈ pairs) {y : τ}
    (hy : p.2 = some y) : ∃ x ∈ args, typeOf x = some y := by
  unfold assign at h
  split at h
  · cases h
    obtain ⟨x, -, rfl⟩ := mem_map.1 hp
    cases hy
  · split at h
    · cases h
    · cases h
      obtain ⟨⟨x, v⟩, -, rfl⟩ := mem_map.1 hp
      obtain ⟨w, -, hw⟩ := Option.bind_eq_some_iff.1 hy
      obtain ⟨⟨z, u⟩, hz, hzy⟩ := exists_of_findSome?_eq_some hw
      dsimp only at hzy
      split at hzy
      · exact ⟨z, (of_mem_zip hz).1, hzy⟩
      · cases hzy

end Assign

/-! ### Errors -/

/-- A computation that fails only with faults of tensors. -/
abbrev FailsAsTensor {α : Type} : Except Error α → Prop :=
  Yields (fun e => ∃ f, e.fault = .tensor f) fun _ => True

theorem FailsAsTensor.mapM {α β : Type} {f : α → Except Error β} (hf : ∀ a, FailsAsTensor (f a)) (as : List α) (e : Error)
    (h : as.mapM f = .error e) : ∃ f, e.fault = .tensor f :=
  (Yields.mapM hf as).of_error h

theorem failsAsTensor_scalarElementType (v : Literal) : FailsAsTensor v.scalarElementType := by
  cases v with
  | bool | int | float | str => trivial
  | none | list => exact ⟨_, rfl⟩

theorem failsAsTensor_checkElements (type : ElementType) : ∀ vs : List Literal,
    FailsAsTensor (Literal.checkElements type vs)
  | [] => trivial
  | v :: vs => (failsAsTensor_scalarElementType v).bind fun _ _ => .ite (failsAsTensor_checkElements type vs) ⟨_, rfl⟩

theorem failsAsTensor_elementType (v : Literal) : FailsAsTensor v.elementType := by
  cases v with
  | bool | int | float | str => trivial
  | none => exact ⟨_, rfl⟩
  | list vs =>
    cases vs with
    | nil => exact ⟨_, rfl⟩
    | cons v vs =>
      exact (failsAsTensor_scalarElementType v).bind fun type _ =>
        (failsAsTensor_checkElements type (v :: vs)).bind fun _ _ => trivial

theorem failsAsTensor_convert (dtype : ElementType) (v : Literal) : FailsAsTensor (v.convert dtype) := by
  cases v with
  | none | list => exact ⟨_, rfl⟩
  | bool | int => exact .ite trivial (.ite trivial (.ite trivial (.ite trivial ⟨_, rfl⟩)))
  | str => exact .ite trivial (.ite trivial (.ite ⟨_, rfl⟩ ⟨_, rfl⟩))
  | float x =>
    refine .ite trivial (.ite trivial (.ite ?_ (.ite trivial ⟨_, rfl⟩)))
    split
    · trivial
    · exact ⟨_, rfl⟩

theorem failsAsTensor_toTensor (v : Literal) (dtype : Option ElementType) : FailsAsTensor (v.toTensor dtype) :=
  (failsAsTensor_elementType v).bind fun _ _ => (Yields.mapM (failsAsTensor_convert _) _).bind fun _ _ =>
    .ite trivial ⟨_, rfl⟩

theorem failsAsTensor_castArgument (p : Argument × Option ElementType) : FailsAsTensor (castArgument p) := by
  obtain ⟨a, dtype⟩ := p
  cases a with
  | literal v => exact .ite ((failsAsTensor_toTensor v dtype).map fun _ _ => trivial) trivial
  | tensor t => trivial

theorem dtype_of_toTensor {v : Literal} {dtype : Option ElementType} {t : Tensor} (h : v.toTensor dtype = .ok t) :
    ∃ own, v.elementType = .ok own ∧ t.dtype = dtype.getD own := by
  obtain ⟨own, hown, h⟩ := bind_eq_ok.1 h
  obtain ⟨data, -, h⟩ := bind_eq_ok.1 h
  unfold Tensor.create at h
  split at h
  · cases h
    exact ⟨own, hown, rfl⟩
  · cases h

/-! ### Both runs -/

/-- What happens to an argument: in the graph, the name of the input and the casts that are added; at run time, the type
that it is given and what it becomes. -/
structure Treatment where
  actual : Actual
  input : String
  casts : List CastLike
  target : Option ElementType
  result : Argument

/-- Both runs treat an argument alike: a literal is cast to the type of a value and converted to the type of the tensor at
the same place, or it is not cast, is given no type and becomes a tensor of its own type. Nothing else changes. -/
inductive Treatment.Alike (args : List Actual) : Treatment → Prop
  | tensor {name given t target} : Alike args ⟨.tensor name given t, name, [], target, .tensor t⟩
  | omitted {target} : Alike args ⟨.omitted, "", [], target, .literal .none⟩
  | cast {name v plain output r} (j : ℕ) {like given t} (place : args[j]? = some (.tensor like given t))
    (converted : v.toTensor (some t.dtype) = .ok r) :
    Alike args ⟨.literal name v plain, output, [⟨output, name, like⟩], some t.dtype, .tensor r⟩
  | keep {name v plain r} (converted : v.toTensor none = .ok r) (type : v.elementType = .ok r.dtype) :
    Alike args ⟨.literal name v plain, name, [], none, .tensor r⟩

/-- An argument in a graph, with the value whose type it is given. -/
def graphPair (p : Actual × Option (String × Tensor)) : Operand × Option Operand :=
  p.map Actual.operand (Option.map fun y => { name := y.1 })

/-- An argument at run time, with the type that it is given. -/
def valuePair (p : Actual × Option (String × Tensor)) : Argument × Option ElementType :=
  p.map Actual.argument (Option.map fun y => y.2.dtype)

/-- Some place among the arguments has a tensor of the given name and value. -/
def HasTensor (args : List Actual) (y : String × Tensor) : Prop :=
  ∃ (j : ℕ) (given : y.1 ≠ ""), args[j]? = some (.tensor y.1 given y.2)

section Runs

variable {args : List Actual}

/-- **One argument** is treated alike, if it is given the type of a tensor among the arguments. -/
theorem exists_treatment {p : Actual × Option (String × Tensor)}
    (hp : ∀ y, p.2 = some y → HasTensor args y) {r : Argument}
    (hr : castArgument (valuePair p) = .ok r) (c : Casts) :
    ∃ s : Treatment, ∃ names, s.Alike args ∧ s.actual = p.1 ∧ (s.actual.argument, s.target) = valuePair p ∧ s.result = r ∧
      addOperand c (graphPair p) = ⟨c.inputs ++ [s.input], c.casts ++ s.casts, names⟩ := by
  obtain ⟨a, y⟩ := p
  cases a with
  | tensor name given t =>
    cases hr
    refine ⟨_, c.names, .tensor, rfl, rfl, rfl, ?_⟩
    cases y <;> simp [addOperand, graphPair, Actual.operand]
  | omitted =>
    cases hr
    refine ⟨_, c.names, .omitted, rfl, rfl, rfl, ?_⟩
    cases y <;> simp [addOperand, graphPair, Actual.operand, Operand.omitted]
  | literal name v plain =>
    simp only [valuePair, Prod.map_apply, Actual.argument, castArgument, toArgument, isPromotable_of_isPlain plain,
      if_true] at hr
    obtain ⟨t, ht, rfl⟩ := map_eq_ok.1 hr
    cases y with
    | none =>
      obtain ⟨own, hown, htype⟩ := dtype_of_toTensor ht
      refine ⟨_, c.names, .keep ht (hown.trans (congrArg _ htype.symm)), rfl, rfl, rfl, ?_⟩
      simp [addOperand, graphPair, Actual.operand]
    | some y =>
      obtain ⟨j, given, place⟩ := hp y rfl
      exact ⟨_, _, .cast j place ht, rfl, rfl, rfl, rfl⟩

/-- **All arguments** are treated alike, one after the other. -/
theorem exists_treatments : ∀ {pairs : List (Actual × Option (String × Tensor))} {results : List Argument},
    (∀ p ∈ pairs, ∀ y, p.2 = some y → HasTensor args y) →
    (pairs.map valuePair).mapM castArgument = .ok results → ∀ c : Casts,
    ∃ steps : List Treatment, ∃ names, (∀ s ∈ steps, s.Alike args) ∧ steps.map (·.actual) = pairs.map Prod.fst ∧
      steps.map (fun s => (s.actual.argument, s.target)) = pairs.map valuePair ∧ steps.map (·.result) = results ∧
      (pairs.map graphPair).foldl addOperand c =
        ⟨c.inputs ++ steps.map (·.input), c.casts ++ steps.flatMap (·.casts), names⟩
  | [], results, _, hr, c => by
    cases hr
    exact ⟨[], c.names, by simp⟩
  | p :: pairs, results, hp, hr, c => by
    rw [map_cons, mapM_cons] at hr
    obtain ⟨r, hfirst, hr⟩ := bind_eq_ok.1 hr
    obtain ⟨rs, hrest, hr⟩ := bind_eq_ok.1 hr
    cases hr
    obtain ⟨s, names, halike, hactual, hvalue, rfl, hadd⟩ := exists_treatment (hp p mem_cons_self) hfirst c
    obtain ⟨steps, names', hsteps, hactuals, hvalues, rfl, hfold⟩ :=
      exists_treatments (fun q hq => hp q (mem_cons_of_mem _ hq)) hrest
        ⟨c.inputs ++ [s.input], c.casts ++ s.casts, names⟩
    refine ⟨s :: steps, names', forall_mem_cons.2 ⟨halike, hsteps⟩, ?_, ?_, rfl, ?_⟩
    · rw [map_cons, map_cons, hactual, hactuals]
    · rw [map_cons, map_cons, hvalue, hvalues]
    · rw [map_cons, foldl_cons, hadd, hfold]
      simp

end Runs

/-- **Graphs and run-time values promote alike**: both runs reject the same calls for their number of arguments, with the
same error; and if the run on values succeeds, then so does the one in the graph, and each argument is treated alike. -/
theorem runs_promote_alike (names : Names) (schema : Option (List Formal)) (args : List Actual) :
    (∀ e : Error, e.code = some .arityError → (ofOperands names schema (args.map Actual.operand) = .error e ↔
      ofArguments schema (args.map Actual.argument) = .error e)) ∧
    ∀ results, ofArguments schema (args.map Actual.argument) = .ok results →
      ∃ steps : List Treatment, ∃ names', (∀ s ∈ steps, s.Alike args) ∧ steps.map (·.actual) = args ∧
        ofOperands names schema (args.map Actual.operand) =
          .ok ⟨steps.map (·.input), steps.flatMap (·.casts), names'⟩ ∧
        assign argumentType schema (args.map Actual.argument) =
          .ok (steps.map fun s => (s.actual.argument, s.target)) ∧
        steps.map (·.result) = results := by
  have hgraph := assign_map Actual.operandType_operand schema args
  have hvalue := assign_map Actual.argumentType_argument schema args
  rw [ofOperands_eq, ofArguments, castInputs, hgraph, hvalue]
  cases hpairs : assign Actual.tensor? schema args with
  | error e =>
    refine ⟨fun e' _ => ?_, fun _ h => by cases h⟩
    exact (Except.error.injEq e e').to_iff.trans (Except.error.injEq e e').to_iff.symm
  | ok pairs =>
    refine ⟨fun e hcode => ⟨fun h => (nomatch h), fun h => ?_⟩, fun results hresults => ?_⟩
    · obtain ⟨f, hf⟩ := FailsAsTensor.mapM failsAsTensor_castArgument _ e h
      rw [Error.code, hf] at hcode
      cases f <;> cases hcode
    · have hsource : ∀ p ∈ pairs, ∀ y, p.2 = some y → HasTensor args y := by
        intro p hp y hy
        obtain ⟨a, ha, hay⟩ := exists_of_assign hpairs hp hy
        obtain ⟨given, rfl⟩ := Actual.eq_tensor_of_tensor? hay
        obtain ⟨j, hj⟩ := List.mem_iff_getElem?.1 ha
        exact ⟨j, given, hj⟩
      obtain ⟨steps, names', halike, hactuals, hvalues, hresult, hfold⟩ :=
        exists_treatments hsource hresults ⟨[], [], names⟩
      refine ⟨steps, names', halike, hactuals.trans (fst_of_assign hpairs), congrArg Except.ok hfold, ?_, hresult⟩
      exact congrArg Except.ok hvalues.symm

def sumFormals : List Formal :=
  [⟨"A", "T", .single, true⟩, ⟨"B", "T", .single, true⟩]

/-- The literal comes first and takes the type of the tensor after it. -/
def sumActuals : List Actual :=
  [.literal "int64_1" (.int 1) trivial, .tensor "X" (by decide) ⟨.int32, [], [.int 5]⟩]

theorem runs_promote_alike_sum :
    ofArguments sumFormals (sumActuals.map Actual.argument) =
      .ok [.tensor ⟨.int32, [], [.int 1]⟩, .tensor ⟨.int32, [], [.int 5]⟩] ∧
    ∃ steps : List Treatment, ∃ names', (∀ s ∈ steps, s.Alike sumActuals) ∧ steps.map (·.actual) = sumActuals ∧
      ofOperands {} sumFormals (sumActuals.map Actual.operand) =
        .ok ⟨steps.map (·.input), steps.flatMap (·.casts), names'⟩ ∧
      assign argumentType sumFormals (sumActuals.map Actual.argument) =
        .ok (steps.map fun s => (s.actual.argument, s.target)) ∧
      steps.map (·.result) = [.tensor ⟨.int32, [], [.int 1]⟩, .tensor ⟨.int32, [], [.int 5]⟩] :=
  ⟨rfl, (runs_promote_alike {} sumFormals sumActuals).2 _ rfl⟩

/-- In the graph of the sum, the cast is to the type of the tensor. -/
example : (ofOperands {} sumFormals (sumActuals.map Actual.operand)).map (fun c => (c.inputs, c.casts)) =
    .ok (["int64_1_cast", "X"], [⟨"int64_1_cast", "int64_1", "X"⟩]) := by
  rfl

end OpGraph.Promotion
