import OpGraph.Error
import OpGraph.Literal
import OpGraph.Number.Shortest
import OpGraph.Types.Element

/-!
Tensors of run-time values. A literal becomes a tensor of rank zero, a list of literals one of rank one; without a
target the element type follows the literal, and a list must have elements of one type.
-/

namespace OpGraph

inductive TensorElement where
  | bool (b : Bool)
  | int (i : Int)
  | float (x : Float)
  | str (s : String)

/-- A tensor with as many elements as its dimensions ask for. -/
structure Tensor where
  dtype : ElementType
  dims : List Int
  data : List TensorElement

def TensorElement.text : TensorElement → String
  | bool b => if b then "true" else "false"
  | int i => toString i
  | float x => Shortest.text x
  | str s => s

namespace Tensor

def size (dims : List Int) : Int :=
  dims.foldl (· * ·) 1

def create (dtype : ElementType) (dims : List Int) (data : List TensorElement) : Except Error Tensor :=
  if size dims = data.length then .ok ⟨dtype, dims, data⟩
  else
    let number (i : Int) : String := Shortest.text (Binary64.ofInt i)
    .error ⟨.tensor (.size (",".intercalate (dims.map number)) (number (size dims)) (toString data.length)), none⟩

def rank (t : Tensor) : Nat :=
  t.dims.length

def text (t : Tensor) : String :=
  let body := match t.dims, t.data with
    | [], e :: _ => e.text
    | _, data => "[" ++ ", ".intercalate (data.map TensorElement.text) ++ "]"
  "Tensor<" ++ t.dtype.name ++ ">(" ++ body ++ ")"

end Tensor

namespace Literal

def tensorError {α : Type} (f : TensorFault) : Except Error α :=
  .error { fault := .tensor f }

def scalarElementType : Literal → Except Error ElementType
  | bool _ => .ok .bool
  | int _ => .ok .int64
  | float _ => .ok .float
  | str _ => .ok .string
  | none => tensorError (.element "None")
  | list _ => tensorError (.element "list")

def checkElements (type : ElementType) : List Literal → Except Error Unit
  | [] => .ok ()
  | v :: vs => do
    if (← v.scalarElementType) = type then checkElements type vs else tensorError .mixedLiteral

def elementType : Literal → Except Error ElementType
  | list [] => tensorError .emptyLiteral
  | list (v :: vs) => do
    let type ← v.scalarElementType
    checkElements type (v :: vs)
    return type
  | v => v.scalarElementType

def elements : Literal → List Literal
  | list vs => vs
  | v => [v]

def dims : Literal → List Int
  | list vs => [vs.length]
  | _ => []

def roundTo (dtype : ElementType) (x : Float) : Float :=
  if dtype = .float then x.toFloat32.toFloat else x

def convert (dtype : ElementType) (v : Literal) : Except Error TensorElement :=
  let refuse (what : String) : Except Error TensorElement := tensorError (.conversion what dtype.name)
  match v with
  | none => refuse "None"
  | list _ => refuse "a nested list"
  | bool b =>
    if dtype = .bool then .ok (.bool b)
    else if dtype = .string then .ok (.str (TensorElement.bool b).text)
    else if dtype.isInteger then .ok (.int (if b then 1 else 0))
    else if dtype.isFloat then .ok (.float (if b then 1.0 else 0.0))
    else tensorError (.elementType dtype.name)
  | int i =>
    if dtype = .bool then .ok (.bool (i != 0))
    else if dtype = .string then .ok (.str (toString i))
    else if dtype.isInteger then .ok (.int i)
    else if dtype.isFloat then .ok (.float (roundTo dtype (Binary64.ofInt i)))
    else tensorError (.elementType dtype.name)
  | float x =>
    if dtype = .bool then .ok (.bool (!(x == 0.0) && !x.isNaN))
    else if dtype = .string then .ok (.str (Shortest.text x))
    else if dtype.isInteger then
      match Binary64.truncate? x with
      | some i => .ok (.int i)
      | Option.none => refuse (Shortest.text x)
    else if dtype.isFloat then .ok (.float (roundTo dtype x))
    else tensorError (.elementType dtype.name)
  | str s =>
    if dtype = .bool then .ok (.bool (!s.isEmpty))
    else if dtype = .string then .ok (.str s)
    else if dtype.isInteger || dtype.isFloat then refuse ("'" ++ s ++ "'")
    else tensorError (.elementType dtype.name)

def toTensor (v : Literal) (dtype : Option ElementType := Option.none) : Except Error Tensor := do
  let own ← v.elementType
  let target := dtype.getD own
  let data ← v.elements.mapM (convert target)
  Tensor.create target v.dims data

end Literal

end OpGraph
