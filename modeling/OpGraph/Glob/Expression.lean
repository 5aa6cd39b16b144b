import OpGraph.Glob.Alternatives
import OpGraph.Glob.Bracket
import OpGraph.Text.Blank

/-!
Regular expressions of the patterns of names. A star stands for any symbols, a question mark for one, brackets for one
of a set, and alternatives for what their mark says. Nothing but a dot stands for the dot at the start of a name.
-/

namespace OpGraph.Glob

structure Expression where
  choices : List (List Regex) := [[]]
  text : List Char := []
  magic : Bool := false
  /-- Whether it is about code points and not about units. -/
  wide : Bool := false
  /-- Whether its written form escapes a symbol that needs no escape, which expressions about code points must not. -/
  strayEscape : Bool := false

namespace Expression

def joinChoices : List (List Regex) → List (List Regex) → List (List Regex)
  | [c], d :: ds => (c ++ d) :: ds
  | c :: cs, ds => c :: joinChoices cs ds
  | [], ds => ds

def append (a b : Expression) : Expression where
  choices := joinChoices a.choices b.choices
  text := a.text ++ b.text
  magic := a.magic || b.magic
  wide := a.wide || b.wide
  strayEscape := a.strayEscape || b.strayEscape

instance : Append Expression := ⟨append⟩

def choice : List Expression → Expression
  | [] => {}
  | [e] => e
  | e :: es => e ++ { choices := [[], []], text := ['|'] } ++ choice es

def group (q : Quantity) (opening closing : String) (e : Expression) : Expression :=
  { e with
    choices := [[.group q e.choices]]
    text := opening.toList ++ e.text ++ closing.toList
    magic := true }

def ofRegex (r : Regex) (text : String) : Expression :=
  { choices := [[r]], text := text.toList, magic := true }

def run : Expression := ofRegex (.run false) "[^/]*?"

def someRun : Expression := ofRegex (.run true) "[^/]+?"

def anySymbol : Expression := ofRegex .anySymbol "[^/]"

def noDot : Expression := { ofRegex (.group .absent [[.symbol 46]]) "(?!\\.)" with magic := false }

def stop : Expression := { ofRegex .stop "(?:$|\\/)" with magic := false }

def isSpecial (c : Char) : Bool :=
  c ∈ ['^', '$', '\\', '.', '*', '+', '?', '(', ')', '[', ']', '\x7b', '\x7d', '|', '/']

def ofSymbol (c : Char) (escaped : Bool) : Expression :=
  { choices := [[.symbol (Text.leadUnit c)]]
    text := if escaped then ['\\', c] else [c]
    strayEscape := escaped && !isSpecial c }

def symbol (c : Char) : Expression :=
  ofSymbol c (isSpecial c && c ≠ '/' || c ∈ ['-', ',', '#'] || Text.isBlank c)

/-- A symbol after a backslash. An escaped bar is written without its backslash, where it parts two choices. -/
def escapedSymbol (c : Char) : Expression :=
  if c = '|' then { choices := [[], []], text := ['|'] } else ofSymbol c (isSpecial c && c ≠ '/' || c = '!')

/-- A text without signs; the fuel bounds its length. A text that is a star alone stands for at least one symbol if
`whole`. -/
def ofText (wide whole : Bool) : (fuel : Nat) → List Char → Expression
  | 0, _ => {}
  | fuel + 1, cs =>
    match cs with
    | [] => {}
    | ['\\'] => symbol '\\'
    | '\\' :: c :: cs => escapedSymbol c ++ ofText wide false fuel cs
    | '*' :: rest => (if whole && rest.isEmpty then someRun else run) ++ ofText wide false fuel rest
    | '?' :: cs => anySymbol ++ ofText wide false fuel cs
    | '[' :: cs =>
      match Bracket.read? wide cs with
      | some s =>
        let set : Expression := match s.symbol with
          | some c => symbol c
          | none => { choices := [[s.regex]], text := s.text, magic := true, wide := s.wide }
        set ++ ofText wide false fuel s.rest
      | none => symbol '[' ++ ofText wide false fuel cs
    | c :: cs => symbol c ++ ofText wide false fuel cs

def joinSymbols : List Regex → List Regex
  | .symbol h :: .symbol l :: rs =>
    match Text.joinPairs [h, l] with
    | [u] => .symbol u :: joinSymbols rs
    | _ => .symbol h :: joinSymbols (.symbol l :: rs)
  | r :: rs => r :: joinSymbols rs
  | [] => []

def ofChars (wide whole : Bool) (cs : List Char) : Expression :=
  let e := ofText wide whole (cs.length + 1) cs
  if wide then { e with choices := e.choices.map joinSymbols } else e

/-- Keeps an expression that starts with a set of symbols from reading the dot at the start of a name. -/
def guarded (start dots : Bool) (e : Expression) : Expression :=
  if start && !dots && e.text.head? == some '[' then noDot ++ e else e

/-- Alternatives as one expression, from the expressions of the choices and those in which dots are read. -/
def ofAlternatives (mark : Mark) (start dots endsEmpty : Bool) (body dotted : Expression) : Expression :=
  let guard : Expression := if start && !dots then noDot else {}
  let repeated : Option Expression :=
    if dots || dotted.text = body.text then none
    else some (group .once "(?:" ")" body ++ group .many "(?:" ")*?" dotted)
  match mark with
  | .except =>
    if endsEmpty then guard ++ someRun
    else group .once "(?:" ")" (group .absent "(?!" ")" (group .once "(?:" ")" body) ++ guard ++ run)
  | .once => group .once "(?:" ")" body
  | .optional => group .optional "(?:" ")?" body
  | .many => match repeated with
    | some e => group .optional "(?:" ")?" e
    | none => group .many "(?:" ")*" body
  | .atLeastOnce => match repeated with
    | some e => group .once "(?:" ")" e
    | none => group .atLeastOnce "(?:" ")+" body

/-- Keeps the start of parts from reading a dot, unless alternatives come first, which see to it themselves. -/
def guardedParts (start dots : Bool) (ps : List NamePart) (e : Expression) : Expression :=
  match ps with
  | .text _ :: _ => guarded start dots e
  | _ => e

mutual
/-- The expression of a part other than a text. It is at the start of the name or at its end if `start` and `last` say
so, and reads a dot at the start if `dots`. -/
def ofPart (wide start last dots : Bool) : NamePart → Expression
  | .text cs => ofChars wide false cs
  | .unclosed cs => guarded start dots (ofChars wide false cs)
  | .alternatives mark isOpen copied choices =>
    let whole := start && last
    let join (es : List Expression) : Expression := choice (es.filter fun e => !whole || !e.text.isEmpty)
    let body := join (ofChoices wide start last dots (mark = .except) copied choices)
    if whole && body.text.isEmpty && mark ≠ .except then
      let cs := NamePart.written (.alternatives mark isOpen copied choices)
      { choices := [cs.map fun c => .symbol (Text.leadUnit c)], text := cs }
    else
      let dotted := join (ofChoices wide start last true (mark = .except) copied choices)
      ofAlternatives mark start dots isOpen body dotted
/-- The expressions of choices. Those of a list that must not be read reach to the end of the name, and of copies only
the first is at its start. -/
def ofChoices (wide start last dots except copied : Bool) : List (List NamePart) → List Expression
  | [] => []
  | c :: cs =>
    let e := guardedParts start dots c (ofParts wide start start (last || except) dots c)
    (if except then e ++ stop else e) :: ofChoices wide (start && !copied) last dots except copied cs
/-- The expression of parts in sequence, the first of which is at the start of the name if `first`. A text among them is
taken for a whole name if `start` and `last`. -/
def ofParts (wide start first last dots : Bool) : List NamePart → Expression
  | [] => {}
  | p :: ps =>
    let e := match p with
      | .text cs => ofChars wide (start && last) cs
      | p => ofPart wide first (last && ps.isEmpty) dots p
    e ++ ofParts wide start (first && p.isExcept) last dots ps
end

def ofPattern (wide : Bool) (cs : List Char) : Expression :=
  let parts := NamePart.completeAll [] (NamePart.ofChars cs)
  guardedParts true false parts (ofParts wide true true true false parts)

end Expression

end OpGraph.Glob
