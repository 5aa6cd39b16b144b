/-!
The UTF-16 view of text. Columns of scripts count UTF-16 units, and the order of operator names, of object keys and
of script strings compares them; everything else works on characters. A surrogate without its partner is no character;
a text holds it as the character of the last private plane that ends in the same four hexadecimal digits.
-/

namespace OpGraph.Text

def isSurrogate (u : Nat) : Bool :=
  0xD800 ≤ u && u < 0xE000

/-- Whether a character stands for a surrogate without its partner. -/
def isLone (c : Char) : Bool :=
  0x10D800 ≤ c.toNat && c.toNat < 0x10E000

def ofUnit (u : Nat) : Char :=
  Char.ofNat (if isSurrogate u then 0x100000 + u else u)

/-- Number of UTF-16 units of a character: two beyond the basic plane, one otherwise. -/
def width (c : Char) : Nat :=
  if c.toNat < 0x10000 || isLone c then 1 else 2

/-- UTF-16 units of a character: itself, or a surrogate pair. -/
def unitsOf (c : Char) : List Nat :=
  let n := c.toNat
  if isLone c then [n - 0x100000]
  else if n < 0x10000 then [n]
  else [0xD800 + (n - 0x10000) / 0x400, 0xDC00 + (n - 0x10000) % 0x400]

def units (s : String) : List Nat :=
  s.toList.flatMap unitsOf

def leadUnit (c : Char) : Nat :=
  if isLone c then c.toNat - 0x100000
  else if c.toNat < 0x10000 then c.toNat
  else 0xD800 + (c.toNat - 0x10000) / 0x400

def before (a b : String) : Bool :=
  decide (units a < units b)

/-- Sort by UTF-16 units of a key, keeping the given order between equal keys. -/
def sortBy {α : Type} (key : α → String) (xs : List α) : List α :=
  xs.mergeSort fun a b => !before (key b) (key a)

def joinPairs : List Nat → List Nat
  | h :: l :: rest =>
    if 0xD800 ≤ h ∧ h < 0xDC00 ∧ 0xDC00 ≤ l ∧ l < 0xE000 then
      (0x10000 + (h - 0xD800) * 0x400 + (l - 0xDC00)) :: joinPairs rest
    else h :: joinPairs (l :: rest)
  | us => us

def ofUnits (us : List Nat) : List Char :=
  (joinPairs us).map ofUnit

/-- A text whose lone surrogates became replacement characters, as in its UTF-8 form. -/
def replaceLone (s : String) : String :=
  String.ofList (s.toList.map fun c => if isLone c then '\uFFFD' else c)

end OpGraph.Text
