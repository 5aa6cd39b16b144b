import Mathlib
import OpGraph.Graph.Interchange

/-!
The constant of a literal in a graph, and the tensor that the literal becomes at run time. Both are refused alike. Else
they have one element type and one shape, and as many elements as the shape asks for: the same ones, except that the
elements of a tensor of floats are rounded.
-/

namespace OpGraph

open List

variable {type : ElementType} {v : Literal} {vs : List Literal}

namespace Literal

theorem scalars_of_checkElements (h : checkElements type vs = .ok ()) : ∀ v ∈ vs, v.scalarElementType = .ok type := by
  induction vs with
  | nil => simp
  | cons v vs ih =>
    obtain ⟨own, hv, h⟩ := bind_eq_ok.1 h
    split at h
    · rename_i heq
      exact forall_mem_cons.2 ⟨heq ▸ hv, ih h⟩
    · cases h

theorem scalars_of_elementType (h : v.elementType = .ok type) :
    v.elements ≠ [] ∧ ∀ e ∈ v.elements, e.scalarElementType = .ok type := by
  cases v with
  | list vs =>
    cases vs with
    | nil => cases h
    | cons v vs =>
      obtain ⟨own, -, h⟩ := bind_eq_ok.1 h
      obtain ⟨⟨⟩, hc, h⟩ := bind_eq_ok.1 h
      cases h
      exact ⟨cons_ne_nil _ _, scalars_of_checkElements hc⟩
  | _ => exact ⟨cons_ne_nil _ _, forall_mem_singleton.2 h⟩

theorem size_dims (v : Literal) : Tensor.size v.dims = v.elements.length := by
  cases v <;> simp [Tensor.size, dims, elements]

theorem toTensor_eq {dtype : Option ElementType} {data : List TensorElement} (h : v.elementType = .ok type)
    (hd : dtype.getD type = type) (hdata : v.elements.mapM (convert type) = .ok data)
    (hlength : data.length = v.elements.length) : v.toTensor dtype = .ok ⟨type, v.dims, data⟩ := by
  rw [toTensor, h]
  change v.elements.mapM (convert (dtype.getD type)) >>= _ = _
  rw [hd, hdata]
  exact if_pos ((size_dims v).trans (congrArg _ hlength.symm))

end Literal

namespace Interchange

/-- Literals of an element type, the elements that they become, and how a constant of the type stores them. -/
inductive Stored : ElementType → List Literal → List TensorElement → TensorData → Prop
  | bool (bs : List Bool) :
    Stored .bool (bs.map .bool) (bs.map .bool) (.int32 (bs.map fun b => if b then 1 else 0))
  | int (is : List ℤ) : Stored .int64 (is.map .int) (is.map .int) (.int64 is)
  | float (xs : List Float) :
    Stored .float (xs.map .float) (xs.map fun x => .float (Literal.roundTo .float x)) (.float xs)
  | str (ss : List String) : Stored .string (ss.map .str) (ss.map .str) (.string ss)

def TensorData.count : TensorData → ℕ
  | int32 xs | int64 xs => xs.length
  | float xs | double xs => xs.length
  | string xs => xs.length
  | absent => 0

variable {es : List TensorElement} {data : TensorData}

theorem exists_map_of_scalars {α : Type} {f : α → Literal} (hf : ∀ v, v.scalarElementType = .ok type → v ∈ Set.range f)
    (h : ∀ v ∈ vs, v.scalarElementType = .ok type) : ∃ xs : List α, xs.map f = vs := by
  change vs ∈ Set.range (map f)
  rw [Set.range_list_map]
  exact fun v hv => hf v (h v hv)

theorem exists_stored (hne : vs ≠ []) (h : ∀ v ∈ vs, v.scalarElementType = .ok type) :
    ∃ es data, Stored type vs es data := by
  obtain ⟨v, hv⟩ := exists_mem_of_ne_nil vs hne
  cases v <;> cases h _ hv
  · obtain ⟨bs, rfl⟩ := exists_map_of_scalars (fun v hv => by cases v <;> cases hv; exact ⟨_, rfl⟩) h
    exact ⟨_, _, .bool bs⟩
  · obtain ⟨is, rfl⟩ := exists_map_of_scalars (fun v hv => by cases v <;> cases hv; exact ⟨_, rfl⟩) h
    exact ⟨_, _, .int is⟩
  · obtain ⟨xs, rfl⟩ := exists_map_of_scalars (fun v hv => by cases v <;> cases hv; exact ⟨_, rfl⟩) h
    exact ⟨_, _, .float xs⟩
  · obtain ⟨ss, rfl⟩ := exists_map_of_scalars (fun v hv => by cases v <;> cases hv; exact ⟨_, rfl⟩) h
    exact ⟨_, _, .str ss⟩

theorem Stored.mapM_convert (h : Stored type vs es data) : vs.mapM (Literal.convert type) = .ok es := by
  cases h <;> rw [mapM_map] <;> exact mapM_pure

theorem Stored.length_eq (h : Stored type vs es data) : es.length = vs.length ∧ data.count = vs.length := by
  cases h <;> simp [TensorData.count]

theorem Stored.ofLiteral_eq (h : Stored type v.elements es data) (htype : v.elementType = .ok type) (name : String) :
    Tensor.ofLiteral name v = .ok ⟨name, type, v.dims, data⟩ := by
  have htensor : v.toTensor (some type) = .ok ⟨type, v.dims, es⟩ :=
    Literal.toTensor_eq htype rfl h.mapM_convert h.length_eq.1
  rw [Tensor.ofLiteral, htype]
  change v.toTensor (some type) >>= _ = _
  rw [htensor]
  generalize v.elements = vs at h ⊢
  cases h <;> simp [bind, Except.bind, pure, Except.pure, TensorElement.text, Function.comp_def]

/-- **A literal becomes one tensor**, as a constant and at run time: both are refused with the same error, or both have the
same element type and shape, and hold the same elements, as many as the shape asks for. -/
theorem constant_alike (name : String) (v : Literal) :
    (∃ e, Tensor.ofLiteral name v = .error e ∧ v.toTensor = .error e) ∨
      ∃ p t, Tensor.ofLiteral name v = .ok p ∧ v.toTensor = .ok t ∧ p.elementType = t.dtype ∧ p.dims = t.dims ∧
        Stored t.dtype v.elements t.data p.data ∧ p.data.count = p.dims.prod := by
  cases h : v.elementType with
  | error e =>
    refine .inl ⟨e, ?_, ?_⟩
    · rw [Tensor.ofLiteral, h]
      rfl
    · rw [Literal.toTensor, h]
      rfl
  | ok type =>
    obtain ⟨hne, hscalars⟩ := Literal.scalars_of_elementType h
    obtain ⟨es, data, hs⟩ := exists_stored hne hscalars
    refine .inr ⟨_, _, hs.ofLiteral_eq h name, Literal.toTensor_eq h rfl hs.mapM_convert hs.length_eq.1, rfl, rfl, hs, ?_⟩
    rw [hs.length_eq.2]
    cases v <;> simp [Literal.dims, Literal.elements]

end Interchange

end OpGraph
