import OpGraph.Error
import OpGraph.Syntax.Token

/-!
From text to tokens. Lines joined by brackets or a backslash form one logical line; blank lines and lines that hold only
a comment give no tokens; the indentation of the other lines, with tabs reaching to the next multiple of eight, opens
and closes blocks.
-/

namespace OpGraph

def Position.after (p : Position) (c : Char) : Position :=
  if c = '\n' then ⟨p.line + 1, 0⟩ else ⟨p.line, p.column + Text.width c⟩

def Position.afterAll (p : Position) (cs : List Char) : Position :=
  cs.foldl Position.after p

namespace Lexer

/-! ### Characters -/

def isBlank (c : Char) : Bool :=
  c = ' ' || c = '\t'

def isNameStart (c : Char) : Bool :=
  c.isAlpha || c = '_'

def isNamePart (c : Char) : Bool :=
  c.isAlphanum || c = '_'

def isDigitPart (c : Char) : Bool :=
  c.isDigit || c = '_'

def isBaseMark (c : Char) : Bool :=
  c ∈ ['x', 'X', 'o', 'O', 'b', 'B']

def isHexPart (c : Char) : Bool :=
  c.isDigit || c ∈ ['a', 'b', 'c', 'd', 'e', 'f', 'A', 'B', 'C', 'D', 'E', 'F', '_']

/-! ### Words, numbers and strings -/

/-- The part after the dot of a number. A dot followed by another one is not part of the number. -/
def fractionPart : List Char → List Char × List Char
  | '.' :: '.' :: cs => ([], '.' :: '.' :: cs)
  | '.' :: cs => ('.' :: cs.takeWhile isDigitPart, cs.dropWhile isDigitPart)
  | cs => ([], cs)

/-- The exponent of a number: a mark, perhaps a sign, and digits. A mark without digits is not part of the number. -/
def exponentPart : List Char → List Char × List Char
  | e :: s :: cs =>
    if e = 'e' ∨ e = 'E' then
      if s = '+' ∨ s = '-' then
        match cs with
        | d :: _ =>
          if d.isDigit then (e :: s :: cs.takeWhile Char.isDigit, cs.dropWhile Char.isDigit) else ([], e :: s :: cs)
        | [] => ([], e :: s :: cs)
      else if s.isDigit then (e :: (s :: cs).takeWhile Char.isDigit, (s :: cs).dropWhile Char.isDigit)
      else ([], e :: s :: cs)
    else ([], e :: s :: cs)
  | cs => ([], cs)

def splitNumber (cs : List Char) : List Char × List Char :=
  match cs with
  | '0' :: b :: rest =>
    if isBaseMark b then ('0' :: b :: rest.takeWhile isHexPart, rest.dropWhile isHexPart) else decimal cs
  | cs => decimal cs
where
  decimal (cs : List Char) : List Char × List Char :=
    let whole := cs.takeWhile isDigitPart
    let (fraction, rest) := fractionPart (cs.dropWhile isDigitPart)
    let (exponent, rest) := exponentPart rest
    (whole ++ fraction ++ exponent, rest)

/-- What a backslash followed by a character stands for. Unknown escapes keep the backslash. -/
def unescape (c : Char) : List Char :=
  match c with
  | 'n' => ['\n']
  | 't' => ['\t']
  | 'r' => ['\r']
  | '0' => ['\x00']
  | '\\' => ['\\']
  | '\'' => ['\'']
  | '"' => ['"']
  | c => ['\\', c]

def closes (quote : Char) (triple : Bool) (cs : List Char) : Bool :=
  if triple then [quote, quote, quote].isPrefixOf cs else [quote].isPrefixOf cs

def fail {α : Type} (f : SyntaxFault) (p : Position) : Except Error α :=
  .error ⟨.script f, some p.location⟩

def splitString (quote : Char) (triple : Bool) :
    Position → List Char → Except Error (List Char × Position × List Char)
  | p, [] => fail .unterminatedString p
  | p, c :: cs =>
    if closes quote triple (c :: cs) then
      let n := if triple then 3 else 1
      .ok ([], p.afterAll ((c :: cs).take n), (c :: cs).drop n)
    else if c = '\n' ∧ !triple then fail .unterminatedString p
    else if c = '\\' then
      match cs with
      | [] => fail .unterminatedString ⟨p.line, p.column + 2⟩
      | e :: rest => do
        let (value, q) ← splitString quote triple ((p.after c).after e) rest
        return (if e = '\n' then value else unescape e ++ value, q)
    else do
      let (value, q) ← splitString quote triple (p.after c) cs
      return (c :: value, q)

/-! ### Operators -/

def longOperators : List String :=
  ["**=", "//=", ">>=", "<<=", "...",
    "**", "//", "==", "!=", "<=", ">=", "->", "+=", "-=", "*=", "/=", "%=", "@=", "&=", "|=", "^=", "<<", ">>", ":="]

def isOperator (c : Char) : Bool :=
  c ∈ ['+', '-', '*', '/', '%', '@', '&', '|', '^', '~', '<', '>', '(', ')', '[', ']', '\x7b', '\x7d', ',', ':', '.',
    ';', '=']

def isOpening (c : Char) : Bool :=
  c = '(' || c = '[' || c = '\x7b'

def isClosing (c : Char) : Bool :=
  c = ')' || c = ']' || c = '\x7d'

/-! ### Lines -/

/-- State between tokens: the position, the number of open brackets, the indentations of the open blocks from the inside
out, whether a line starts here, and the tokens so far, the last one first. -/
structure State where
  pos : Position := ⟨1, 0⟩
  depth : Nat := 0
  indents : List Nat := []
  lineStart : Bool := true
  tokens : List Token := []

namespace State

def push (st : State) (kind : TokenKind) (text : String) (pos : Position) : State :=
  { st with tokens := ⟨kind, text, pos⟩ :: st.tokens }

def skip (st : State) (cs : List Char) : State :=
  { st with pos := st.pos.afterAll cs }

def lastKind (st : State) : Option TokenKind :=
  st.tokens.head?.map (·.kind)

def indentation (st : State) : Nat :=
  st.indents.headD 0

end State

def blankWidth (cs : List Char) : Nat :=
  cs.foldl (fun w c => if c = '\t' then (w / 8 + 1) * 8 else w + 1) 0

/-- Leading blanks of a line and its rest, unless the line is empty or a comment. -/
def leadingBlanks? (cs : List Char) : Option (List Char × List Char) :=
  match cs.dropWhile isBlank with
  | [] => none
  | c :: rest => if c = '\n' ∨ c = '#' then none else some (cs.takeWhile isBlank, c :: rest)

/-- Closes the blocks that are indented more than `width`. -/
def closeBlocks (width : Nat) (pos : Position) : List Nat → List Token → List Nat × List Token
  | [], tokens => ([], tokens)
  | w :: ws, tokens =>
    if width < w then closeBlocks width pos ws (⟨.dedent, "", ⟨pos.line, width⟩⟩ :: tokens) else (w :: ws, tokens)

/-- Opens a block or closes blocks at the start of a line that is indented by `width`. -/
def layout (st : State) (width : Nat) : Except Error State :=
  if st.indentation < width then
    .ok { (st.push .indent "" ⟨st.pos.line, width⟩) with indents := width :: st.indents, lineStart := false }
  else
    let (indents, tokens) := closeBlocks width st.pos st.indents st.tokens
    if width = indents.headD 0 then .ok { st with indents, tokens, lineStart := false } else fail .unindent st.pos

/-- Ends a logical line, unless brackets are open or the line has no tokens. -/
def endLine (st : State) : State :=
  if st.depth = 0 then
    let st := match st.lastKind with
      | none | some .newline | some .indent | some .dedent => st
      | some _ => st.push .newline "" st.pos
    { st with lineStart := true }
  else st

def number (st : State) (cs : List Char) : Except Error (State × List Char) :=
  let (text, rest) := splitNumber cs
  let after := st.skip text
  match rest with
  | c :: _ =>
    if c = 'j' ∨ c = 'J' then fail .complexLiteral after.pos
    else if isNameStart c then fail .malformedNumber after.pos
    else .ok (after.push .number (String.ofList text) st.pos, rest)
  | [] => .ok (after.push .number (String.ofList text) st.pos, rest)

def string (st : State) (quote : Char) (rest : List Char) : Except Error (State × List Char) := do
  let triple := [quote, quote].isPrefixOf rest
  let (opening, body) := if triple then ([quote, quote, quote], rest.drop 2) else ([quote], rest)
  let (value, pos, rest) ← splitString quote triple (st.pos.afterAll opening) body
  return ({ (st.push .string (String.ofList value) st.pos) with pos }, rest)

def operator (st : State) (c : Char) (rest : List Char) : Except Error (State × List Char) :=
  match longOperators.find? fun op => op.toList.isPrefixOf (c :: rest) with
  | some op => .ok ((st.skip op.toList).push .op op st.pos, (c :: rest).drop op.length)
  | none =>
    if isOperator c then
      let depth := if isOpening c then st.depth + 1 else if isClosing c then st.depth - 1 else st.depth
      .ok ({ ((st.skip [c]).push .op (String.ofList [c]) st.pos) with depth }, rest)
    else fail (.unexpectedUnit (Text.leadUnit c)) st.pos

def advance (st : State) (c : Char) (rest : List Char) : Except Error (State × List Char) :=
  if isBlank c then .ok (st.skip [c], rest)
  else if c = '#' then
    let comment := (c :: rest).takeWhile (· ≠ '\n')
    .ok (st.skip comment, (c :: rest).dropWhile (· ≠ '\n'))
  else if c = '\\' ∧ rest.head? = some '\n' then .ok (st.skip ['\\', '\n'], rest.drop 1)
  else if c = '\n' then .ok ((endLine st).skip [c], rest)
  else if isNameStart c then
    let word := c :: rest.takeWhile isNamePart
    .ok ((st.skip word).push .name (String.ofList word) st.pos, rest.dropWhile isNamePart)
  else if c.isDigit ∨ (c = '.' ∧ rest.head?.any Char.isDigit) then number st (c :: rest)
  else if c = '\'' ∨ c = '"' then string st c rest
  else operator st c rest

/-- Reads the whole text. Every step consumes a character, so its length is fuel enough. -/
def run : Nat → State → List Char → Except Error State
  | 0, st, _ => .ok st
  | _, st, [] => .ok st
  | fuel + 1, st, c :: rest =>
    if st.lineStart ∧ st.depth = 0 then
      match leadingBlanks? (c :: rest) with
      | none =>
        let line := (c :: rest).takeWhile (· ≠ '\n')
        let rest := (c :: rest).dropWhile (· ≠ '\n')
        run fuel (st.skip (line ++ rest.take 1)) (rest.drop 1)
      | some (blanks, rest) => do
        let st ← layout (st.skip blanks) (blankWidth blanks)
        match rest with
        | [] => run fuel st []
        | c :: rest =>
          let (st, rest) ← advance st c rest
          run fuel st rest
    else do
      let (st, rest) ← advance st c rest
      run fuel st rest

def finish (st : State) : List Token :=
  let last := match st.lastKind with
    | none | some .newline | some .dedent => []
    | some _ => [⟨TokenKind.newline, "", st.pos⟩]
  let closing := st.indents.map fun _ => ⟨TokenKind.dedent, "", ⟨st.pos.line, 0⟩⟩
  st.tokens.reverse ++ last ++ closing ++ [⟨TokenKind.eof, "", st.pos⟩]

end Lexer

def tokenize (source : String) : Except Error (List Token) := do
  let cs := Source.normalize source.toList
  return Lexer.finish (← Lexer.run cs.length {} cs)

end OpGraph
