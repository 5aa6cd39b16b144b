import OpGraph.Syntax.Lexer
import OpGraph.Syntax.Number
import OpGraph.Syntax.Tree

/-!
From tokens to syntax trees. Each level of the grammar is a parser that is given the parser of the level inside it, so
that only brackets, blocks and chains of prefix operators recurse; these are counted down from the number of tokens.
-/

namespace OpGraph.Syntax

/-- A parser reads from the front of the tokens that are left. -/
abbrev Parser := StateT (List Token) (Except Error)

namespace Parser

/-! ### Tokens -/

/-- The next token. The last one, the end of the input, is never used up. -/
def peek : Parser Token := do
  match ← get with
  | t :: _ => return t
  | [] => return ⟨.eof, "", ⟨1, 0⟩⟩

def peekSecond : Parser Token := do
  match ← get with
  | _ :: t :: _ => return t
  | [t] => return t
  | [] => return ⟨.eof, "", ⟨1, 0⟩⟩

def next : Parser Token := do
  match ← get with
  | t :: u :: ts => set (u :: ts); return t
  | [t] => return t
  | [] => return ⟨.eof, "", ⟨1, 0⟩⟩

def remaining : Parser Nat :=
  return (← get).length

def failAt {α : Type} (f : SyntaxFault) (t : Token) : Parser α :=
  throw ⟨.script f, some t.pos.location⟩

def fail {α : Type} (f : SyntaxFault) : Parser α := do
  failAt f (← peek)

def checkKind (kind : TokenKind) : Parser Bool :=
  return (← peek).kind == kind

def checkOp (op : String) : Parser Bool :=
  return (← peek).isOp op

def checkWord (word : String) : Parser Bool :=
  return (← peek).isWord word

def acceptIf (test : Token → Bool) : Parser Bool := do
  if test (← peek) then
    discard next
    return true
  else return false

def acceptOp (op : String) : Parser Bool :=
  acceptIf (·.isOp op)

def acceptWord (word : String) : Parser Bool :=
  acceptIf (·.isWord word)

def acceptKind (kind : TokenKind) : Parser Bool :=
  acceptIf (·.kind == kind)

def expectIf (test : Token → Bool) (wanted : String) : Parser Token := do
  let t ← peek
  if test t then next else failAt (.expected wanted t.description) t

def expectOp (op : String) : Parser Token :=
  expectIf (·.isOp op) s!"'{op}'"

def expectWord (word : String) : Parser Token :=
  expectIf (·.isWord word) s!"'{word}'"

def expectKind (kind : TokenKind) : Parser Token :=
  expectIf (·.kind == kind) kind.label

/-! ### Words -/

def rejectedWords : List String :=
  ["class", "with", "try", "raise", "assert", "del", "global", "nonlocal", "lambda", "yield", "async", "await",
    "continue"]

def reservedWords : List String :=
  ["def", "if", "elif", "else", "for", "while", "in", "not", "and", "or", "is", "return", "break", "pass", "import",
    "from", "as"] ++ rejectedWords

def identifier : Parser String := do
  let t ← expectKind .name
  if t.text ∈ reservedWords then failAt (.unexpectedKeyword t.text) t
  else return t.text

def dottedRest : Nat → Parser String
  | 0 => fail .tooDeep
  | fuel + 1 => do
    if ← acceptOp "." then
      let name ← identifier
      return "." ++ name ++ (← dottedRest fuel)
    else return ""

def dottedName : Parser String := do
  let name ← identifier
  return name ++ (← dottedRest (← remaining))

/-! ### Separated items -/

/-- The items after the first one. A comma before a token that stops the sequence ends it. -/
def moreItems {α : Type} (stop : Token → Bool) (item : Parser α) : Nat → Parser (List α)
  | 0 => fail .tooDeep
  | fuel + 1 => do
    if ← acceptOp "," then
      if stop (← peek) then return []
      else
        let x ← item
        return x :: (← moreItems stop item fuel)
    else return []

/-- Items separated by commas, none if the sequence stops at once. -/
def items {α : Type} (stop : Token → Bool) (item : Parser α) : Parser (List α) := do
  if stop (← peek) then return []
  else
    let x ← item
    return x :: (← moreItems stop item (← remaining))

def tupleOf (stop : Token → Bool) (item : Parser Expr) : Parser Expr := do
  let first ← item
  if ← checkOp "," then
    return .tuple first.pos (first :: (← moreItems stop item (← remaining)))
  else return first

def endsExpression (t : Token) : Bool :=
  t.kind == .newline || t.kind == .eof || (t.kind == .op && t.text ∈ [")", "]", "=", ":", ";"])

def testList (test : Parser Expr) : Parser Expr :=
  tupleOf endsExpression test

/-! ### Atoms and trailers -/

def strings : Parser String := do
  let ts ← get
  let front := ts.takeWhile (·.kind == .string)
  set (ts.drop front.length)
  return String.join (front.map (·.text))

def nameAtom (t : Token) : Parser Expr := do
  discard next
  match t.text with
  | "True" => return .constant t.pos (.bool true)
  | "False" => return .constant t.pos (.bool false)
  | "None" => return .constant t.pos .none
  | word => if word ∈ reservedWords then failAt (.unexpectedKeyword word) t else return .name t.pos word

def listItem (test : Parser Expr) : Parser Expr := do
  let e ← test
  if ← checkWord "for" then fail .comprehension
  else return e

def bracketAtom (test : Parser Expr) (t : Token) : Parser Expr := do
  match t.text with
  | "(" =>
    discard next
    if ← acceptOp ")" then return .tuple t.pos []
    else
      let inner ← testList test
      discard (expectOp ")")
      return inner
  | "[" =>
    discard next
    let elts ← items (·.isOp "]") (listItem test)
    discard (expectOp "]")
    return .list t.pos elts
  | "\x7b" => failAt .display t
  | "..." => failAt .ellipsis t
  | _ => failAt (.unexpected t.description) t

def atom (test : Parser Expr) : Parser Expr := do
  let t ← peek
  match t.kind with
  | .number =>
    discard next
    return .constant t.pos (← numberValue t.text)
  | .string => return .constant t.pos (.str (← strings))
  | .name => nameAtom t
  | .op => bracketAtom test t
  | _ => failAt (.unexpected t.description) t

def arguments (test : Parser Expr) (keywordSeen : Bool) : Nat → Parser (List Expr × List Keyword)
  | 0 => fail .tooDeep
  | fuel + 1 => do
    let t ← peek
    if t.isOp ")" then return ([], [])
    else if t.isOp "*" || t.isOp "**" then failAt .starArgument t
    else if t.kind == .name && (← peekSecond).isOp "=" then
      discard next
      discard next
      let value ← test
      let keyword : Keyword := ⟨t.pos, t.text, value⟩
      if ← acceptOp "," then
        let (args, keywords) ← arguments test true fuel
        return (args, keyword :: keywords)
      else return ([], [keyword])
    else if keywordSeen then failAt .argumentOrder t
    else
      let arg ← test
      if ← acceptOp "," then
        let (args, keywords) ← arguments test false fuel
        return (arg :: args, keywords)
      else return ([arg], [])

def endsBound (t : Token) : Bool :=
  t.isOp ":" || t.isOp "," || t.isOp "]"

def bound (test : Parser Expr) : Parser (Option Expr) := do
  if endsBound (← peek) then return none else return some (← test)

def index (test : Parser Expr) : Parser Expr := do
  let start ← peek
  let lower ← if start.isOp ":" then pure none else some <$> test
  if ← acceptOp ":" then
    let upper ← bound test
    let step ← if ← acceptOp ":" then bound test else pure none
    return .slice start.pos lower upper step
  else
    match lower with
    | some e => return e
    | none => failAt .emptySubscript start

def trailers (test : Parser Expr) : Nat → Expr → Parser Expr
  | 0, _ => fail .tooDeep
  | fuel + 1, e => do
    if ← acceptOp "(" then
      let (args, keywords) ← arguments test false (← remaining)
      discard (expectOp ")")
      trailers test fuel (.call e.pos e args keywords)
    else if ← acceptOp "[" then
      let slice ← tupleOf (·.isOp "]") (index test)
      discard (expectOp "]")
      trailers test fuel (.subscript e.pos e slice)
    else if ← acceptOp "." then
      let member ← identifier
      trailers test fuel (.attr e.pos e member)
    else return e

def atomExpr (test : Parser Expr) : Parser Expr := do
  let e ← atom test
  trailers test (← remaining) e

/-! ### Operators -/

def unaryOf (t : Token) : Option UnaryOp :=
  if t.isOp "-" then some .minus
  else if t.isOp "+" then some .plus
  else if t.isOp "~" then some .invert
  else none

/-- Sign operators and powers. A power binds tighter than a sign on its left and looser than one on its right. -/
def factor (test : Parser Expr) : Nat → Parser Expr
  | 0 => fail .tooDeep
  | fuel + 1 => do
    let t ← peek
    match unaryOf t with
    | some op =>
      discard next
      return .unary t.pos op (← factor test fuel)
    | none =>
      let base ← atomExpr test
      if ← acceptOp "**" then return .binary base.pos base .pow (← factor test fuel)
      else return base

abbrev Level := List (String × BinaryOp)

def operatorOf (level : Level) (t : Token) : Option BinaryOp :=
  if t.kind == .op then (level.find? (·.1 == t.text)).map (·.2) else none

def binaryRest (level : Level) (operand : Parser Expr) : Nat → Expr → Parser Expr
  | 0, _ => fail .tooDeep
  | fuel + 1, left => do
    match operatorOf level (← peek) with
    | some op =>
      discard next
      let right ← operand
      binaryRest level operand fuel (.binary left.pos left op right)
    | none => return left

def binary (level : Level) (operand : Parser Expr) : Parser Expr := do
  let left ← operand
  binaryRest level operand (← remaining) left

/-- The left-associative levels, the tightest one first. -/
def binaryLevels : List Level :=
  [[("*", .mult), ("/", .div), ("//", .floorDiv), ("%", .mod), ("@", .matMult)],
    [("+", .add), ("-", .sub)],
    [("<<", .lShift), (">>", .rShift)],
    [("&", .bitAnd)],
    [("^", .bitXor)],
    [("|", .bitOr)]]

def bitOr (test : Parser Expr) : Parser Expr := do
  let fuel ← remaining
  binaryLevels.foldl (fun operand level => binary level operand) (factor test (fuel + 1))

def compareSpellings : List (String × CompareOp) :=
  [("==", .eq), ("!=", .notEq), ("<", .lt), ("<=", .ltE), (">", .gt), (">=", .gtE)]

def compareOp : Parser (Option CompareOp) := do
  let t ← peek
  if t.kind == .op then
    match compareSpellings.find? (·.1 == t.text) with
    | some (_, op) =>
      discard next
      return some op
    | none => return none
  else if t.isWord "in" then
    discard next
    return some .isIn
  else if t.isWord "not" && (← peekSecond).isWord "in" then
    discard next
    discard next
    return some .notIn
  else if t.isWord "is" then
    discard next
    if ← acceptWord "not" then return some .isNot else return some .is
  else return none

def compareRest (operand : Parser Expr) : Nat → Parser (List CompareOp × List Expr)
  | 0 => fail .tooDeep
  | fuel + 1 => do
    match ← compareOp with
    | some op =>
      let e ← operand
      let (ops, es) ← compareRest operand fuel
      return (op :: ops, e :: es)
    | none => return ([], [])

def comparison (test : Parser Expr) : Parser Expr := do
  let left ← bitOr test
  let (ops, comparators) ← compareRest (bitOr test) (← remaining)
  if ops.isEmpty then return left else return .compare left.pos left ops comparators

def negation (test : Parser Expr) : Nat → Parser Expr
  | 0 => fail .tooDeep
  | fuel + 1 => do
    let t ← peek
    if ← acceptWord "not" then return .unary t.pos .not (← negation test fuel)
    else comparison test

def booleanRest (word : String) (operand : Parser Expr) : Nat → Parser (List Expr)
  | 0 => fail .tooDeep
  | fuel + 1 => do
    if ← acceptWord word then
      let e ← operand
      return e :: (← booleanRest word operand fuel)
    else return []

/-- A chain of one boolean operator is a single node. -/
def boolean (word : String) (op : BoolOp) (operand : Parser Expr) : Parser Expr := do
  let first ← operand
  let rest ← booleanRest word operand (← remaining)
  if rest.isEmpty then return first else return .boolean first.pos op (first :: rest)

def conjunction (test : Parser Expr) : Parser Expr := do
  let fuel ← remaining
  boolean "and" .and (negation test (fuel + 1))

def disjunction (test : Parser Expr) : Parser Expr :=
  boolean "or" .or (conjunction test)

/-- An expression without commas at its top, nested at most as deep as the fuel. -/
def test : Nat → Parser Expr
  | 0 => fail .tooDeep
  | fuel + 1 => do
    if ← checkWord "lambda" then fail .lambda
    else
      let e ← disjunction (test fuel)
      if ← checkWord "if" then fail .conditionalExpression
      else return e

def expression : Parser Expr := do
  test ((← remaining) + 1)

def expressionList : Parser Expr :=
  testList expression

def condition : Parser Expr := do
  let e ← expression
  let t ← peek
  if t.isOp ":=" then failAt .assignmentExpression t else return e

def loopTarget : Parser Expr :=
  tupleOf (·.isWord "in") do bitOr (test ((← remaining) + 1))

/-! ### Simple statements -/

def markOf (t : Token) : Mark Unit :=
  ⟨t.pos, ()⟩

def augmentedOps : List (String × BinaryOp) :=
  [("+=", .add), ("-=", .sub), ("*=", .mult), ("/=", .div), ("//=", .floorDiv), ("%=", .mod), ("**=", .pow),
    ("@=", .matMult), ("&=", .bitAnd), ("|=", .bitOr), ("^=", .bitXor), ("<<=", .lShift), (">>=", .rShift)]

def assignedRest : Nat → Parser (List Expr)
  | 0 => fail .tooDeep
  | fuel + 1 => do
    if ← acceptOp "=" then
      let e ← expressionList
      return e :: (← assignedRest fuel)
    else return []

/-- An expression, an annotated declaration or an assignment. `x op= e` stands for `x = x op e`. -/
def expressionStatement : Parser (Stmt Unit) := do
  let start ← peek
  let first ← expressionList
  if ← acceptOp ":" then
    let typeExpr ← expression
    let value ← if ← acceptOp "=" then some <$> expressionList else pure none
    return .annAssign (markOf start) first typeExpr value
  else
    let t ← peek
    match operatorOf augmentedOps t with
    | some op =>
      discard next
      match first with
      | .name pos id =>
        let right ← expressionList
        return .assign (markOf start) [.name pos id] (.binary pos first op right)
      | _ => failAt .augmentedTarget t
    | none =>
      let rest ← assignedRest (← remaining)
      match rest.getLast? with
      | none => return .expr (markOf start) first
      | some value => return .assign (markOf start) (first :: rest.dropLast) value

def returnStatement (start : Token) : Parser (Stmt Unit) := do
  discard next
  let t ← peek
  if t.kind == .newline || t.isOp ";" then return .ret (markOf start) none
  else return .ret (markOf start) (some (← expressionList))

def asName : Parser (Option String) := do
  if ← acceptWord "as" then some <$> identifier else return none

def importedModule : Parser Alias := do
  let name ← dottedName
  return ⟨name, ← asName⟩

def importStatement (start : Token) : Parser (Stmt Unit) := do
  discard next
  let first ← importedModule
  let rest ← moreItems (fun _ => false) importedModule (← remaining)
  return .imports (markOf start) (first :: rest)

def importedName : Parser Alias := do
  let name ← identifier
  return ⟨name, ← asName⟩

def importFromStatement (start : Token) : Parser (Stmt Unit) := do
  discard next
  let module ← dottedName
  discard (expectWord "import")
  let parenthesized ← acceptOp "("
  let stop (t : Token) : Bool := parenthesized && t.isOp ")"
  let names ← if ← acceptOp "*" then pure [⟨"*", none⟩] else items stop importedName
  if parenthesized then discard (expectOp ")")
  return .importFrom (markOf start) module names

def smallStatement : Parser (Stmt Unit) := do
  let t ← peek
  if t.kind == .name then
    if t.text ∈ rejectedWords then failAt (.statement t.text) t
    else match t.text with
      | "pass" =>
        discard next
        return .pass (markOf t)
      | "break" =>
        discard next
        return .brk (markOf t)
      | "return" => returnStatement t
      | "import" => importStatement t
      | "from" => importFromStatement t
      | _ => expressionStatement
  else expressionStatement

def lineRest : Nat → Parser (List (Stmt Unit))
  | 0 => fail .tooDeep
  | fuel + 1 => do
    if ← acceptOp ";" then
      if ← checkKind .newline then return []
      else
        let s ← smallStatement
        return s :: (← lineRest fuel)
    else return []

def simpleLine : Parser (List (Stmt Unit)) := do
  let first ← smallStatement
  let rest ← lineRest (← remaining)
  discard (expectKind .newline)
  return first :: rest

/-! ### Blocks -/

def blockBody (statement : Parser (List (Stmt Unit))) : Nat → Parser (List (Stmt Unit))
  | 0 => fail .tooDeep
  | fuel + 1 => do
    let t ← peek
    if t.kind == .dedent || t.kind == .eof then return []
    else
      let ss ← statement
      return ss ++ (← blockBody statement fuel)

/-- A block: the rest of the line, or indented lines. -/
def block (statement : Parser (List (Stmt Unit))) : Parser (List (Stmt Unit)) := do
  discard (expectOp ":")
  if ← acceptKind .newline then
    discard (expectKind .indent)
    let body ← blockBody statement (← remaining)
    discard (expectKind .dedent)
    return body
  else simpleLine

/-- The parameters of a function, the defaults at the end. -/
def parameters (function : String) (defaultSeen : Bool) : Nat → Parser (List Param × List Expr)
  | 0 => fail .tooDeep
  | fuel + 1 => do
    let t ← peek
    if t.isOp ")" then return ([], [])
    else if t.isOp "*" || t.isOp "**" then failAt (.parameterForm function) t
    else
      let name ← identifier
      let typeExpr ← if ← acceptOp ":" then some <$> expression else pure none
      let default ← if ← acceptOp "=" then some <$> expression else pure none
      if default.isNone && defaultSeen then failAt .defaultOrder t
      else
        let param : Param := ⟨t.pos, name, typeExpr⟩
        if ← acceptOp "," then
          let (params, defaults) ← parameters function default.isSome fuel
          return (param :: params, default.toList ++ defaults)
        else return ([param], default.toList)

def functionStatement (statement : Parser (List (Stmt Unit))) : Parser (Stmt Unit) := do
  let start ← expectWord "def"
  let name ← identifier
  discard (expectOp "(")
  let (params, defaults) ← parameters name false (← remaining)
  discard (expectOp ")")
  let returns ← if ← acceptOp "->" then some <$> expression else pure none
  let body ← block statement
  return .function (markOf start) { name, params, defaults, body, returns }

/-- A conditional; each `elif` is a conditional in the else block of the one before. -/
def conditional (statement : Parser (List (Stmt Unit))) : Nat → Parser (Stmt Unit)
  | 0 => fail .tooDeep
  | fuel + 1 => do
    let start ← next
    let test ← condition
    let body ← block statement
    let orelse ←
      if ← checkWord "elif" then (fun s => [s]) <$> conditional statement fuel
      else if ← acceptWord "else" then block statement
      else pure []
    return .cond (markOf start) test body orelse

def loopElse (statement : Parser (List (Stmt Unit))) : Parser (List (Stmt Unit)) := do
  if ← acceptWord "else" then block statement else return []

def forStatement (statement : Parser (List (Stmt Unit))) : Parser (Stmt Unit) := do
  let start ← expectWord "for"
  let target ← loopTarget
  discard (expectWord "in")
  let iter ← expressionList
  let body ← block statement
  return .forLoop (markOf start) target iter body (← loopElse statement)

def whileStatement (statement : Parser (List (Stmt Unit))) : Parser (Stmt Unit) := do
  let start ← expectWord "while"
  let test ← condition
  let body ← block statement
  return .whileLoop (markOf start) test body (← loopElse statement)

/-- A statement, or the statements of a line, nested at most as deep as the fuel. -/
def statement : Nat → Parser (List (Stmt Unit))
  | 0 => fail .tooDeep
  | fuel + 1 => do
    let t ← peek
    if t.isOp "@" then failAt .decorator t
    else if t.kind == .indent then failAt .unexpectedIndent t
    else if t.isWord "def" then return [← functionStatement (statement fuel)]
    else if t.isWord "if" then return [← conditional (statement fuel) (← remaining)]
    else if t.isWord "for" then return [← forStatement (statement fuel)]
    else if t.isWord "while" then return [← whileStatement (statement fuel)]
    else simpleLine

def statements : Nat → Parser Script
  | 0 => fail .tooDeep
  | fuel + 1 => do
    if ← checkKind .eof then return []
    else if ← acceptKind .newline then statements fuel
    else
      let ss ← statement ((← remaining) + 1)
      return ss ++ (← statements fuel)

end Parser

def parseScript (source : String) : Except Error Script := do
  let ts ← tokenize source
  let (script, _) ← (Parser.statements (ts.length + 1)).run ts
  return script

def parseExpression (source : String) : Except Error Expr := do
  match ← parseScript source with
  | [.expr _ e] => return e
  | _ => throw ⟨.script .notOneExpression, some ⟨1, 0, none⟩⟩

end OpGraph.Syntax
