import OpGraph.Proofs.Syntax.Lines

/-!
Expressions written out as tokens, and tokens as text. The rank of an expression says how loosely it binds: calls,
subscripts and attributes bind tightest, then come powers, signs, the binary operators from products to `|`,
comparisons, `not`, `and` and `or`. An operand is put in parentheses where it binds more loosely than its place allows,
and nowhere else. Between tokens stand one or more spaces; every token may be spelled in any way that is read as it.
-/

namespace OpGraph

/-! ### Operators -/

def wordToken (x : String) : Token :=
  ⟨.name, x, default⟩

def signToken (x : String) : Token :=
  ⟨.op, x, default⟩

namespace BinaryOp

def spelling : BinaryOp → String
  | add => "+"
  | sub => "-"
  | mult => "*"
  | div => "/"
  | floorDiv => "//"
  | mod => "%"
  | pow => "**"
  | matMult => "@"
  | bitAnd => "&"
  | bitOr => "|"
  | bitXor => "^"
  | lShift => "<<"
  | rShift => ">>"

def rank : BinaryOp → Nat
  | pow => 1
  | mult | div | floorDiv | mod | matMult => 3
  | add | sub => 4
  | lShift | rShift => 5
  | bitAnd => 6
  | bitXor => 7
  | bitOr => 8

/-- How loosely the left operand may bind. Powers associate to the right, the other operators to the left. -/
def leftRank : BinaryOp → Nat
  | pow => 0
  | op => op.rank

/-- How loosely the right operand may bind. An exponent may have a sign. -/
def rightRank : BinaryOp → Nat
  | pow => 2
  | op => op.rank - 1

end BinaryOp

namespace UnaryOp

def token : UnaryOp → Token
  | minus => signToken "-"
  | plus => signToken "+"
  | invert => signToken "~"
  | not => wordToken "not"

def rank : UnaryOp → Nat
  | not => 10
  | _ => 2

end UnaryOp

namespace BoolOp

def word : BoolOp → String
  | and => "and"
  | or => "or"

def rank : BoolOp → Nat
  | and => 11
  | or => 12

end BoolOp

def CompareOp.tokens : CompareOp → List Token
  | eq => [signToken "=="]
  | notEq => [signToken "!="]
  | lt => [signToken "<"]
  | ltE => [signToken "<="]
  | gt => [signToken ">"]
  | gtE => [signToken ">="]
  | isIn => [wordToken "in"]
  | notIn => [wordToken "not", wordToken "in"]
  | is => [wordToken "is"]
  | isNot => [wordToken "is", wordToken "not"]

/-! ### Expressions as tokens -/

namespace Expr

/-- How loosely an expression binds. -/
def rank : Expr → Nat
  | binary _ _ op _ => op.rank
  | unary _ op _ => op.rank
  | boolean _ op _ => op.rank
  | compare .. => 9
  | _ => 0

/-- The tokens of an expression in a place for expressions that bind at most as loosely as `r`. -/
def enclose (r : Nat) (e : Expr) (ts : List Token) : List Token :=
  if r < e.rank then signToken "(" :: ts ++ [signToken ")"] else ts

def commas (items : List (List Token)) : List Token :=
  [signToken ","].intercalate items

/-- Tokens of the elements of a tuple. A comma follows a single element. -/
def tupleBody : List (List Token) → List Token
  | [ts] => ts ++ [signToken ","]
  | items => commas items

variable (spell : Position → Literal → List Token)

mutual
/-- The tokens of an expression. The tokens of literals are given, which may be different ones at different positions.
A tuple that is not empty may be bare, without its parentheses. -/
def tokens (bare : Bool) : Expr → List Token
  | constant p v => spell p v
  | name _ x => [wordToken x]
  | binary _ l op r =>
    enclose op.leftRank l (tokens false l) ++ signToken op.spelling :: enclose op.rightRank r (tokens false r)
  | unary _ op e => op.token :: enclose op.rank e (tokens false e)
  | boolean _ op es => [wordToken op.word].intercalate (tokensEach (op.rank - 1) es)
  | compare _ l ops es => enclose 8 l (tokens false l) ++ tokensCompared ops es
  | call _ f args keywords =>
    enclose 0 f (tokens false f) ++
      (signToken "(" :: commas (tokensEach 12 args ++ tokensKeywords keywords) ++ [signToken ")"])
  | attr _ e x => enclose 0 e (tokens false e) ++ [signToken ".", wordToken x]
  | subscript _ e i => enclose 0 e (tokens false e) ++ (signToken "[" :: tokens true i ++ [signToken "]"])
  | slice _ lower upper step =>
    tokensOption lower ++ signToken ":" :: (tokensOption upper ++ tokensStep step)
  | tuple _ es =>
    if bare && !es.isEmpty then tupleBody (tokensEach 12 es)
    else signToken "(" :: tupleBody (tokensEach 12 es) ++ [signToken ")"]
  | list _ es => signToken "[" :: commas (tokensEach 12 es) ++ [signToken "]"]

def tokensEach (r : Nat) : List Expr → List (List Token)
  | [] => []
  | e :: es => enclose r e (tokens false e) :: tokensEach r es

def tokensCompared : List CompareOp → List Expr → List Token
  | op :: ops, e :: es => op.tokens ++ enclose 8 e (tokens false e) ++ tokensCompared ops es
  | _, _ => []

def tokensKeywords : List Keyword → List (List Token)
  | [] => []
  | ⟨_, x, e⟩ :: ks => (wordToken x :: signToken "=" :: tokens false e) :: tokensKeywords ks

def tokensOption : Option Expr → List Token
  | none => []
  | some e => tokens false e

def tokensStep : Option Expr → List Token
  | none => []
  | some e => signToken ":" :: tokens false e
end

/-! ### Accepted expressions -/

/-- Tokens that stand for a literal: a number that has it as its value, strings that make it up, or a word. -/
inductive Spells : List Token → Literal → Prop
  | number {s : String} {v : Literal} : Syntax.numberValue s = .ok v → Spells [⟨.number, s, default⟩] v
  | strings {ss : List String} : ss ≠ [] → Spells (ss.map fun s => ⟨.string, s, default⟩) (.str (String.join ss))
  | true : Spells [wordToken "True"] (.bool true)
  | false : Spells [wordToken "False"] (.bool false)
  | none : Spells [wordToken "None"] .none

/-- Places of an expression, as far as slices are concerned: the index of a subscript, an element of a tuple that is one,
or any other. -/
inductive Place where
  | index
  | element
  | inner
  deriving DecidableEq

def Place.elements : Place → Place
  | .index => .element
  | _ => .inner

/-- A word that is a name in expressions. -/
def IsName (x : String) : Prop :=
  x ∉ Syntax.Parser.reservedWords ∧ x ≠ "True" ∧ x ≠ "False" ∧ x ≠ "None"

mutual
/-- The expressions of the language, with literals that are spelled right. -/
def Accepted (place : Place) : Expr → Prop
  | constant p v => Spells (spell p v) v
  | name _ x => IsName x
  | binary _ l _ r => Accepted .inner l ∧ Accepted .inner r
  | unary _ _ e => Accepted .inner e
  | boolean _ _ es => 2 ≤ es.length ∧ AcceptedEach .inner es
  | compare _ l ops es => Accepted .inner l ∧ ops ≠ [] ∧ ops.length = es.length ∧ AcceptedEach .inner es
  | call _ f args keywords => Accepted .inner f ∧ AcceptedEach .inner args ∧ AcceptedKeywords keywords
  | attr _ e x => Accepted .inner e ∧ x ∉ Syntax.Parser.reservedWords
  | subscript _ e i => Accepted .inner e ∧ Accepted .index i
  | slice _ lower upper step =>
    place ≠ .inner ∧ AcceptedOption lower ∧ AcceptedOption upper ∧ AcceptedOption step
  | tuple _ es => AcceptedEach place.elements es
  | list _ es => AcceptedEach .inner es

def AcceptedEach (place : Place) : List Expr → Prop
  | [] => True
  | e :: es => Accepted place e ∧ AcceptedEach place es

def AcceptedKeywords : List Keyword → Prop
  | [] => True
  | ⟨_, _, e⟩ :: ks => Accepted .inner e ∧ AcceptedKeywords ks

def AcceptedOption : Option Expr → Prop
  | none => True
  | some e => Accepted .inner e
end

end Expr

/-! ### Tokens as text -/

/-- A word that can be a name or a keyword. -/
def IsIdentifier (x : String) : Prop :=
  ∃ c cs, x.toList = c :: cs ∧ Lexer.isNameStart c = true ∧ ∀ d ∈ cs, Lexer.isNamePart d = true

/-- The operators and brackets of expressions. -/
def signs : List String :=
  ["(", ")", "[", "]", ",", ":", ".", "=", "+", "-", "*", "/", "//", "%", "**", "@", "&", "|", "^", "~", "<<", ">>", "==",
    "!=", "<", "<=", ">", ">="]

/-- How a token is written. Words and signs stand for themselves; a number or a string may have any spelling that is read
as it. -/
inductive Spelled : Token → List Char → Prop
  | word {x : String} : IsIdentifier x → Spelled (wordToken x) x.toList
  | sign {x : String} : x ∈ signs → Spelled (signToken x) x.toList
  | literal {t : Token} {c : Char} {rest : List Char} {st : Lexer.State} : t.kind = .number ∨ t.kind = .string →
    Lexer.advance {} c rest = .ok (st, []) → st.tokens.map Token.unplaced = [t.unplaced] → Spelled t (c :: rest)

/-- Tokens written out with spaces between them. -/
inductive Spaced : List Token → List Char → Prop
  | last {t : Token} {w : List Char} (n : Nat) : Spelled t w → Spaced [t] (w ++ List.replicate n ' ')
  | cons {t : Token} {w : List Char} (n : Nat) {ts : List Token} {cs : List Char} : Spelled t w → Spaced ts cs →
    Spaced (t :: ts) (w ++ List.replicate (n + 1) ' ' ++ cs)

end OpGraph
