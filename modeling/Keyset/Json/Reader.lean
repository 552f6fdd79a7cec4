import Keyset.Json.Basic
import Keyset.Text.Hex
import Keyset.Text.Split

/-!
# Reading JSON

`Json.read?` reads a whole document. Where an object gives a name twice, the last value counts and
the first place. An integer that fits into sixty-four bits, signed or not, is kept as an integer;
the numeral `-0` and all other numbers become the nearest double, which must be finite.
-/

namespace Keyset.Json

open Decimal Text

/-! ### Blanks and numbers -/

/-- The blank characters of JSON. -/
def isSpace (c : Char) : Bool := c = ' ' || c = '\t' || c = '\n' || c = '\r'

/-- The text without its leading blanks. -/
def skipSpace (s : List Char) : List Char := s.dropWhile isSpace

/-- The value of a numeral written as an integer. -/
def ofInteger (negative : Bool) (n : Nat) : Json :=
  if negative then
    if 1 ≤ n ∧ n ≤ 1 <<< 63 then integer (-n) else real (.ofNumeral true ⟨n, 0⟩)
  else if n < UInt64.size then integer n else real (.ofNumeral false ⟨n, 0⟩)

/-- The exponent at the front, if there is one. -/
def takeExponent? : List Char → Option (Option Int × List Char)
  | [] => some (none, [])
  | c :: s =>
    if c = 'e' ∨ c = 'E' then
      let (negative, t) := splitSign s
      let (ds, rest) := spanDigits t
      (natOf? ds).map fun (n : Nat) => (some (if negative then -(n : Int) else n), rest)
    else some (none, c :: s)

/-- The digits after a point at the front, if there is one. -/
def takePlaces? : List Char → Option (List Char × List Char)
  | '.' :: s =>
    let (ds, rest) := spanDigits s
    if ds = [] then none else some (ds, rest)
  | s => some ([], s)

/-- A number at the front, and the text after it. -/
def takeNumber? (s : List Char) : Option (Json × List Char) := do
  let (negative, s) := match s with
    | '-' :: t => (true, t)
    | _ => (false, s)
  let (whole, s) := spanDigits s
  if whole = [] ∨ (whole.head? = some '0' ∧ whole ≠ ['0']) then none
  else
    let (places, s) ← takePlaces? s
    let (exponent, s) ← takeExponent? s
    let n := Nat.ofDigitChars 10 (whole ++ places) 0
    match places, exponent with
    | [], none => some (ofInteger negative n, s)
    | _, _ =>
      let x := Double.ofNumeral negative ⟨n, exponent.getD 0 - places.length⟩
      if x.isFinite then some (real x, s) else none

/-! ### Strings -/

/-- The character that stands after a backslash for a character of its own. -/
def escaped? (c : Char) : Option Char :=
  if c = '\x22' ∨ c = '\\' ∨ c = '/' then some c
  else if c = 'b' then some '\x08'
  else if c = 'f' then some '\x0c'
  else if c = 'n' then some '\n'
  else if c = 'r' then some '\r'
  else if c = 't' then some '\t'
  else none

/-- The code points, and the halves of code points, of a string up to its closing quote, and the
text after it. -/
def takeUnits? : List Char → Option (List Nat × List Char)
  | [] => none
  | '\\' :: 'u' :: a :: b :: c :: d :: s => do
    let n ← hexOf? [a, b, c, d]
    let (units, rest) ← takeUnits? s
    return (n :: units, rest)
  | '\\' :: c :: s => do
    let e ← escaped? c
    let (units, rest) ← takeUnits? s
    return (e.toNat :: units, rest)
  | c :: s =>
    if c = '\x22' then some ([], s)
    else if c.toNat < 0x20 ∨ c = '\\' then none
    else do
      let (units, rest) ← takeUnits? s
      return (c.toNat :: units, rest)

/-- The characters of code points, where the two halves of a code point make one character and half
of one makes none. -/
def joinHalves? : List Nat → Option (List Char)
  | [] => some []
  | [n] => if 0xD800 ≤ n ∧ n < 0xE000 then none else some [Char.ofNat n]
  | n :: m :: s =>
    if 0xD800 ≤ n ∧ n < 0xDC00 then
      if 0xDC00 ≤ m ∧ m < 0xE000 then
        (joinHalves? s).map (Char.ofNat (0x10000 + (n - 0xD800) * 0x400 + (m - 0xDC00)) :: ·)
      else none
    else if 0xDC00 ≤ n ∧ n < 0xE000 then none
    else (joinHalves? (m :: s)).map (Char.ofNat n :: ·)

/-- A string after its opening quote, and the text after it. -/
def takeString? (s : List Char) : Option (String × List Char) := do
  let (units, rest) ← takeUnits? s
  let cs ← joinHalves? units
  return (String.ofList cs, rest)

/-! ### Documents -/

mutual

/-- A value at the front, and the text after it. The number bounds how deep the recursion goes; no
text needs more than it has characters. -/
def takeValue? : Nat → List Char → Option (Json × List Char)
  | 0, _ => none
  | fuel + 1, s =>
    match skipSpace s with
    | [] => none
    | '{' :: t =>
      match skipSpace t with
      | '}' :: t => some (object [], t)
      | t => (takeMembers? fuel [] t).map fun (ms, rest) => (object ms, rest)
    | '[' :: t =>
      match skipSpace t with
      | ']' :: t => some (array [], t)
      | t => (takeItems? fuel t).map fun (js, rest) => (array js, rest)
    | '\x22' :: t => (takeString? t).map fun (cs, rest) => (text cs, rest)
    | 'n' :: t => (afterWord? "ull".toList t).map (null, ·)
    | 't' :: t => (afterWord? "rue".toList t).map (bool true, ·)
    | 'f' :: t => (afterWord? "alse".toList t).map (bool false, ·)
    | t => takeNumber? t

/-- The items of a list up to its closing bracket, at least one, and the text after it. -/
def takeItems? : Nat → List Char → Option (List Json × List Char)
  | 0, _ => none
  | fuel + 1, s => do
    let (j, s) ← takeValue? fuel s
    match skipSpace s with
    | ',' :: t => (takeItems? fuel t).map fun (js, rest) => (j :: js, rest)
    | ']' :: t => some ([j], t)
    | _ => none

/-- The members of an object up to its closing brace, at least one, after those that were read
before, and the text after it. -/
def takeMembers? : Nat → List (String × Json) → List Char →
    Option (List (String × Json) × List Char)
  | 0, _, _ => none
  | fuel + 1, before, s =>
    match skipSpace s with
    | '\x22' :: t => do
      let (name, t) ← takeString? t
      match skipSpace t with
      | ':' :: t =>
        let (j, t) ← takeValue? fuel t
        let members := put name j before
        match skipSpace t with
        | ',' :: t => takeMembers? fuel members t
        | '}' :: t => some (members, t)
        | _ => none
      | _ => none
    | _ => none

end

/-- Reads a document: one value with nothing but blanks around it. -/
def read? (s : List Char) : Option Json := do
  let (j, rest) ← takeValue? (s.length + 1) s
  if skipSpace rest = [] then some j else none

end Keyset.Json
