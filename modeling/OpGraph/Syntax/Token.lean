import OpGraph.Source.Location

/-!
Tokens of scripts. Blocks are bracketed by `indent` and `dedent`, and every logical line ends in a `newline`.
-/

namespace OpGraph

inductive TokenKind where
  | name
  | number
  | string
  | op
  | newline
  | indent
  | dedent
  | eof
  deriving DecidableEq, Repr

/-- A token with the position of its first character. The text of a string is its value; tokens of the layout have no
text. -/
structure Token where
  kind : TokenKind
  text : String
  pos : Position
  deriving DecidableEq, Repr

def TokenKind.label : TokenKind → String
  | name => "Name"
  | number => "Number"
  | string => "String"
  | op => "Op"
  | newline => "Newline"
  | indent => "Indent"
  | dedent => "Dedent"
  | eof => "EOF"

def Token.description (t : Token) : String :=
  match t.kind with
  | .eof => "end of input"
  | .newline => "end of line"
  | .indent => "indent"
  | .dedent => "dedent"
  | _ => s!"'{t.text}'"

def Token.isOp (t : Token) (op : String) : Bool :=
  t.kind == .op && t.text == op

def Token.isWord (t : Token) (word : String) : Bool :=
  t.kind == .name && t.text == word

end OpGraph
