import OpGraph.Glob.Regex
import OpGraph.Text.Units

/-!
Bracket expressions: sets of symbols in the pattern of a name. A set lists symbols, ranges and named classes between
brackets; an exclamation mark or a caret in front takes the complement, and a closing bracket that comes first is a
member. A backslash before a symbol makes it a member. A pattern is read as the characters of its UTF-16 units.
-/

namespace OpGraph.Glob

structure NamedClass where
  name : String
  items : List SetItem
  text : String
  /-- Whether the class is of code points and not of units. -/
  wide : Bool := true
  /-- Whether the class holds what the items do not. -/
  complement : Bool := false

namespace NamedClass

def single (c : Char) : SetItem := .range c.toNat c.toNat

def all : List NamedClass := [
  { name := "[:alnum:]", items := [.category .letter, .category .letterNumber, .category .digit],
    text := "\\p\x7bL\x7d\\p\x7bNl\x7d\\p\x7bNd\x7d" },
  { name := "[:alpha:]", items := [.category .letter, .category .letterNumber], text := "\\p\x7bL\x7d\\p\x7bNl\x7d" },
  { name := "[:ascii:]", items := [.range 0 0x7f], text := "\\x00-\\x7f", wide := false },
  { name := "[:blank:]", items := [.category .blank, single '\t'], text := "\\p\x7bZs\x7d\\t" },
  { name := "[:cntrl:]", items := [.category .control], text := "\\p\x7bCc\x7d" },
  { name := "[:digit:]", items := [.category .digit], text := "\\p\x7bNd\x7d" },
  { name := "[:graph:]", items := [.category .separator, .category .other], text := "\\p\x7bZ\x7d\\p\x7bC\x7d",
    complement := true },
  { name := "[:lower:]", items := [.category .small], text := "\\p\x7bLl\x7d" },
  { name := "[:print:]", items := [.category .other], text := "\\p\x7bC\x7d" },
  { name := "[:punct:]", items := [.category .punctuation], text := "\\p\x7bP\x7d" },
  { name := "[:space:]", items := .category .separator :: ['\t', '\r', '\n', '\x0b', '\x0c'].map single,
    text := "\\p\x7bZ\x7d\\t\\r\\n\\v\\f" },
  { name := "[:upper:]", items := [.category .capital], text := "\\p\x7bLu\x7d" },
  { name := "[:word:]", items := [.category .letter, .category .letterNumber, .category .digit, .category .connector],
    text := "\\p\x7bL\x7d\\p\x7bNl\x7d\\p\x7bNd\x7d\\p\x7bPc\x7d" },
  { name := "[:xdigit:]", items := [.range 65 70, .range 97 102, .range 48 57], text := "A-Fa-f0-9", wide := false }]

def find? (cs : List Char) : Option NamedClass :=
  all.find? fun k => k.name.toList.isPrefixOf cs

end NamedClass

namespace Bracket

inductive Token where
  | literal (u : Nat)
  | dash
  | named (k : NamedClass)

def Token.text : Token → List Char
  | literal u =>
    let c := Text.ofUnit u
    if c ∈ ['[', ']', '\\', '-'] then ['\\', c] else [c]
  | dash => ['-']
  | named k => k.text.toList

abbrev Entry := List Token

inductive Reading where
  | unclosed
  /-- A range that ends in a class. -/
  | malformed
  | closed (entries : List Entry) (rest : List Char)

def literal (c : Char) : Token := .literal (Text.leadUnit c)

/-- Reads the entries of a set, with fuel for the length of the text. `started` tells whether something came before, and
`first` is the beginning of a range whose end comes next. -/
def read : (fuel : Nat) → (started : Bool) → (first : Option Char) → List Char → Reading
  | 0, _, _, _ => .unclosed
  | fuel + 1, started, first, cs =>
    let add (e : Entry) (first : Option Char) (rest : List Char) : Reading :=
      match read fuel true first rest with
      | .closed es rest => .closed (if e.isEmpty then es else e :: es) rest
      | r => r
    let symbol (c : Char) (rest : List Char) : Reading :=
      match first with
      | some a =>
        if Text.leadUnit a < Text.leadUnit c then add [literal a, .dash, literal c] none rest
        else if a = c then add [literal c] none rest
        else add [] none rest
      | none =>
        match rest with
        | '-' :: ']' :: _ => add [literal c, literal '-'] none (rest.drop 1)
        | '-' :: rest => add [] (some c) rest
        | rest => add [literal c] none rest
    match cs with
    | [] => .unclosed
    | '\\' :: c :: rest => symbol c rest
    | ['\\'] => .unclosed
    | ']' :: rest => if started then .closed [] rest else symbol ']' rest
    | c :: rest =>
      match if c = '[' then NamedClass.find? cs else none with
      | some k => if first.isSome then .malformed else add [.named k] none (cs.drop k.name.length)
      | none => symbol c rest

def joinTokens : List Token → List Token
  | .literal h :: .literal l :: ts =>
    match Text.joinPairs [h, l] with
    | [u] => .literal u :: joinTokens ts
    | _ => .literal h :: joinTokens (.literal l :: ts)
  | t :: ts => t :: joinTokens ts
  | [] => []

/-- The items that tokens list; a dash between no two symbols is a member. -/
def items : List Token → List SetItem
  | .literal a :: .dash :: .literal b :: ts => .range a b :: items ts
  | .literal a :: ts => .range a a :: items ts
  | .dash :: ts => .range 45 45 :: items ts
  | .named k :: ts => k.items ++ items ts
  | [] => []

/-- The set of some tokens. A caret that comes first takes the complement, however it got there. -/
def setOf (wide negated : Bool) (ts : List Token) : Regex :=
  let (negated, ts) := match negated, ts with
    | false, .literal 94 :: ts => (true, ts)
    | negated, ts => (negated, ts)
  .set negated (items (if wide then joinTokens ts else ts))

def isComplement : Entry → Bool
  | [.named k] => k.complement
  | _ => false

def isWide : Entry → Bool
  | [.named k] => k.wide
  | _ => false

structure Result where
  regex : Regex
  text : List Char
  symbol : Option Char := none
  wide : Bool := false
  rest : List Char

/-- A set that no symbol is in; nothing of the pattern after it counts. -/
def nothing : Result := { regex := .never, text := ['$', '.'], rest := [] }

def written (negated : Bool) (ts : List Token) : List Char :=
  '[' :: (if negated then ['^'] else []) ++ ts.flatMap (·.text) ++ [']']

def read? (wide : Bool) (cs : List Char) : Option Result :=
  let (negated, cs) := match cs with
    | '!' :: cs | '^' :: cs => (true, cs)
    | cs => (false, cs)
  match read (cs.length + 1) false none cs with
  | .unclosed => none
  | .malformed => some nothing
  | .closed entries rest =>
    let complements := (entries.filter isComplement).flatten
    let listed := (entries.filter (!isComplement ·)).flatten
    let isWide := entries.any isWide
    let direct := setOf wide negated listed
    let inverse := setOf wide (!negated) complements
    match entries, listed, complements with
    | [], _, _ => some nothing
    | [[.literal u]], _, _ =>
      let c := Text.ofUnit u
      if negated || c ∈ ['\n', '\r', '\u2028', '\u2029'] then
        some { regex := direct, text := written negated listed, rest }
      else some { regex := .symbol u, text := [c], symbol := some c, rest }
    | _, _, [] => some { regex := direct, text := written negated listed, wide := isWide, rest }
    | _, [], _ => some { regex := inverse, text := written (!negated) complements, wide := isWide, rest }
    | _, _, _ =>
      some {
        regex := .group .once [[direct], [inverse]]
        text := '(' :: written negated listed ++ '|' :: written (!negated) complements ++ [')']
        wide := isWide
        rest }

end Bracket

end OpGraph.Glob
