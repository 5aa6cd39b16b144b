import OpGraph.Schema.Registry

/-!
The operators of the default domain at version 18.
-/

namespace OpGraph

namespace DefaultOperators

def one (name type : String) : Formal := { name, type }

def maybe (name type : String) : Formal := { name, type, option := .optional }

/-- A variadic input or output whose values share a type. -/
def many (name type : String) : Formal := { name, type, option := .variadic }

/-- A variadic input or output whose values have any types. -/
def mixed (name type : String) : Formal := { name, type, option := .variadic, homogeneous := false }

def needed (name : String) (type : AttributeType) : AttributeSchema := { name, type, required := true }

def free (name : String) (type : AttributeType) : AttributeSchema := { name, type, required := false }

def preset (name : String) (type : AttributeType) (value : Literal) : AttributeSchema :=
  { name, type, required := false, default := some value }

def op (name : String) (since : Int) (inputs outputs : List Formal) (attributes : List AttributeSchema) : OpSchema :=
  { name, domain := "", since, inputs, outputs, attributes }

def all : List OpSchema :=
  [
    op "Abs" 13 [one "X" "T"] [one "Y" "T"] [],
    op "Add" 14 [one "A" "T", one "B" "T"] [one "C" "T"] [],
    op "And" 7 [one "A" "T", one "B" "T"] [one "C" "T1"] [],
    op "Cast" 13 [one "input" "T1"] [one "output" "T2"] [needed "to" .int],
    op "CastLike" 15 [one "input" "T1", one "target_type" "T2"] [one "output" "T2"] [],
    op "Ceil" 13 [one "X" "T"] [one "Y" "T"] [],
    op "Clip" 13 [one "input" "T", maybe "min" "T", maybe "max" "T"] [one "output" "T"] [],
    op "Concat" 13 [many "inputs" "T"] [one "concat_result" "T"] [needed "axis" .int],
    op "Constant" 13 [] [one "output" "T"]
      [free "value" .tensor, free "value_float" .float, free "value_floats" .floats, free "value_int" .int,
        free "value_ints" .ints, free "value_string" .string, free "value_strings" .strings],
    op "ConstantOfShape" 9 [one "input" "T1"] [one "output" "T2"] [free "value" .tensor],
    op "Cos" 7 [one "input" "T"] [one "output" "T"] [],
    op "Div" 14 [one "A" "T", one "B" "T"] [one "C" "T"] [],
    op "Equal" 13 [one "A" "T", one "B" "T"] [one "C" "T1"] [],
    op "Erf" 13 [one "input" "T"] [one "output" "T"] [],
    op "Exp" 13 [one "input" "T"] [one "output" "T"] [],
    op "Expand" 13 [one "input" "T", one "shape" "tensor(int64)"] [one "output" "T"] [],
    op "Floor" 13 [one "X" "T"] [one "Y" "T"] [],
    op "Gather" 13 [one "data" "T", one "indices" "Tind"] [one "output" "T"] [preset "axis" .int (.int 0)],
    op "Gemm" 13 [one "A" "T", one "B" "T", maybe "C" "T"] [one "Y" "T"]
      [preset "alpha" .float (.float 1.0), preset "beta" .float (.float 1.0), preset "transA" .int (.int 0),
        preset "transB" .int (.int 0)],
    op "Greater" 13 [one "A" "T", one "B" "T"] [one "C" "T1"] [],
    op "GreaterOrEqual" 16 [one "A" "T", one "B" "T"] [one "C" "T1"] [],
    op "Identity" 16 [one "input" "V"] [one "output" "V"] [],
    op "If" 16 [one "cond" "B"] [mixed "outputs" "V"] [needed "else_branch" .graph, needed "then_branch" .graph],
    op "LeakyRelu" 16 [one "X" "T"] [one "Y" "T"] [preset "alpha" .float (.float 0.01)],
    op "Less" 13 [one "A" "T", one "B" "T"] [one "C" "T1"] [],
    op "LessOrEqual" 16 [one "A" "T", one "B" "T"] [one "C" "T1"] [],
    op "Log" 13 [one "input" "T"] [one "output" "T"] [],
    op "Loop" 16 [maybe "M" "I", maybe "cond" "B", mixed "v_initial" "V"] [mixed "v_final_and_scan_outputs" "V"]
      [needed "body" .graph],
    op "MatMul" 13 [one "A" "T", one "B" "T"] [one "Y" "T"] [],
    op "Max" 13 [many "data_0" "T"] [one "max" "T"] [],
    op "Mean" 13 [many "data_0" "T"] [one "mean" "T"] [],
    op "Min" 13 [many "data_0" "T"] [one "min" "T"] [],
    op "Mod" 13 [one "A" "T", one "B" "T"] [one "C" "T"] [preset "fmod" .int (.int 0)],
    op "Mul" 14 [one "A" "T", one "B" "T"] [one "C" "T"] [],
    op "Neg" 13 [one "X" "T"] [one "Y" "T"] [],
    op "Not" 1 [one "X" "T"] [one "Y" "T"] [],
    op "Or" 7 [one "A" "T", one "B" "T"] [one "C" "T1"] [],
    op "Pow" 15 [one "X" "T", one "Y" "T1"] [one "Z" "T"] [],
    op "Range" 11 [one "start" "T", one "limit" "T", one "delta" "T"] [one "output" "T"] [],
    op "Reciprocal" 13 [one "X" "T"] [one "Y" "T"] [],
    op "ReduceMean" 18 [one "data" "T", maybe "axes" "tensor(int64)"] [one "reduced" "T"]
      [preset "keepdims" .int (.int 1), preset "noop_with_empty_axes" .int (.int 0)],
    op "ReduceSum" 13 [one "data" "T", maybe "axes" "tensor(int64)"] [one "reduced" "T"]
      [preset "keepdims" .int (.int 1), preset "noop_with_empty_axes" .int (.int 0)],
    op "Relu" 14 [one "X" "T"] [one "Y" "T"] [],
    op "Reshape" 14 [one "data" "T", one "shape" "tensor(int64)"] [one "reshaped" "T"]
      [preset "allowzero" .int (.int 0)],
    op "Shape" 15 [one "data" "T"] [one "shape" "T1"] [free "end" .int, preset "start" .int (.int 0)],
    op "Sigmoid" 13 [one "X" "T"] [one "Y" "T"] [],
    op "Sign" 13 [one "input" "T"] [one "output" "T"] [],
    op "Sin" 7 [one "input" "T"] [one "output" "T"] [],
    op "Size" 13 [one "data" "T"] [one "size" "T1"] [],
    op "Slice" 13 [one "data" "T", one "starts" "Tind", one "ends" "Tind", maybe "axes" "Tind", maybe "steps" "Tind"]
      [one "output" "T"]
      [],
    op "Softmax" 13 [one "input" "T"] [one "output" "T"] [preset "axis" .int (.int (-1))],
    op "Sqrt" 13 [one "X" "T"] [one "Y" "T"] [],
    op "Squeeze" 13 [one "data" "T", maybe "axes" "tensor(int64)"] [one "squeezed" "T"] [],
    op "Sub" 14 [one "A" "T", one "B" "T"] [one "C" "T"] [],
    op "Sum" 13 [many "data_0" "T"] [one "sum" "T"] [],
    op "Tanh" 13 [one "input" "T"] [one "output" "T"] [],
    op "Transpose" 13 [one "data" "T"] [one "transposed" "T"] [free "perm" .ints],
    op "Unsqueeze" 13 [one "data" "T", one "axes" "tensor(int64)"] [one "expanded" "T"] [],
    op "Where" 16 [one "condition" "B", one "X" "T", one "Y" "T"] [one "output" "T"] [],
    op "Xor" 7 [one "A" "T", one "B" "T"] [one "C" "T1"] []
  ]

end DefaultOperators

def Registry.standard : Registry :=
  .ofList DefaultOperators.all

end OpGraph
