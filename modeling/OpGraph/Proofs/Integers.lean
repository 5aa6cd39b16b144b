import OpGraph.Proofs.Compilation

/-!
The integers of a graph. Constants and attributes hold the integers of literals as they are: none is too large, although
the elements of a tensor of integers have 64 bits.
-/

namespace OpGraph

open List

namespace Literal

theorem checkElements_ints (is : List ℤ) : checkElements .int64 (is.map int) = .ok () := by
  induction is with
  | nil => rfl
  | cons i is ih => exact ih

theorem convert_ints (is : List ℤ) : (is.map int).mapM (convert .int64) = .ok (is.map .int) := by
  rw [mapM_map]
  exact mapM_pure

variable (i : ℤ) (is : List ℤ)

theorem elementType_ints : (list ((i :: is).map int)).elementType = .ok .int64 := by
  change (checkElements .int64 ((i :: is).map int) >>= fun _ => _) = _
  rw [checkElements_ints]
  rfl

theorem toTensor_ints :
    (list ((i :: is).map int)).toTensor (some .int64) = .ok ⟨.int64, [is.length + 1], (i :: is).map .int⟩ := by
  rw [toTensor, elementType_ints]
  change (((i :: is).map int).mapM (convert .int64) >>= _) = _
  rw [convert_ints]
  simp [bind, Except.bind, Tensor.create, Tensor.size, dims]

end Literal

namespace Interchange

theorem Attribute.ints?_ints (is : List ℤ) : ints? (is.map .int) = some is := by
  rw [ints?, mapM_map]
  exact mapM_pure.trans (congrArg some (map_id is))

/-- **Integers are emitted whatever their size**: the tensor and the attribute of a literal hold them as they are. -/
theorem integers_unbounded (name : String) (i : ℤ) (is : List ℤ) :
    Tensor.ofLiteral name (.list ((i :: is).map .int)) = .ok ⟨name, .int64, [is.length + 1], .int64 (i :: is)⟩ ∧
      Attribute.ofLiteral name (.list ((i :: is).map .int)) = .ok ⟨name, .ints, .ints (i :: is)⟩ ∧
      Tensor.ofLiteral name (.int i) = .ok ⟨name, .int64, [], .int64 [i]⟩ ∧
      Attribute.ofLiteral name (.int i) = .ok ⟨name, .int, .int i⟩ := by
  refine ⟨?_, ?_, rfl, rfl⟩
  · rw [Tensor.ofLiteral, Literal.elementType_ints]
    change (Literal.toTensor _ (some .int64) >>= _) = _
    rw [Literal.toTensor_ints]
    simp [bind, Except.bind, pure, Except.pure, Literal.dims]
  · have hall : ((i :: is).map Literal.int).all Attribute.isElement := by simp [Attribute.isElement]
    rw [Attribute.ofLiteral, Attribute.ofList, hall, Attribute.ints?_ints]
    rfl

end Interchange

namespace Compiler

/-- The last index that fits, and a literal that does not. -/
def wideSource : String :=
  "def f(x):\n" ++
  "    return op.Add(x[9223372036854775807, 0], 9223372036854775808)\n"

/-- The elements of the tensors of integers that a node holds. -/
def integersOf (n : GraphNode) : List ℤ :=
  n.attributes.flatMap fun a => match a.value.value with
    | .tensor ⟨_, _, _, .int64 is⟩ => is
    | _ => []

/-- The literal is emitted, and the end of the slice of the index does not fit either. -/
theorem integers_out_of_range : ∃ stmt f, Syntax.parseScript wideSource = .ok [stmt] ∧
    (sampleModule.compile stmt).1 = .ok f ∧
      (f.fn.nodes.flatMap integersOf).filter (9223372036854775808 ≤ ·) = [9223372036854775808, 9223372036854775808] :=
  exists_of_compileOnly _ _ _ (by decide +kernel)

end Compiler

end OpGraph
