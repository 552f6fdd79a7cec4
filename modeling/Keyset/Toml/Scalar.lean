import Keyset.Calendar.Date
import Keyset.Decimal.Numeral
import Keyset.Text.Split
import Keyset.Toml.Document

/-!
# TOML scalars without quotes

Truth values, integers, floating-point numbers, dates and times of day. Each of them is written
without blanks, save that one space may stand between a date and a time of day, so
`Toml.scalar?` reads the whole of a text.
-/

namespace Keyset.Toml

open Decimal Text

/-! ### Numbers -/

/-- The digits of a numeral in which single underscores may stand between two digits. -/
def underscored? (isDigit : Char → Bool) : List Char → Option (List Char)
  | [] => none
  | [c] => if isDigit c then some [c] else none
  | c :: '_' :: s => if isDigit c then (underscored? isDigit s).map (c :: ·) else none
  | c :: d :: s => if isDigit c then (underscored? isDigit (d :: s)).map (c :: ·) else none

/-- The digits of a decimal numeral, which has no leading zero. -/
def wholeDigits? (s : List Char) : Option (List Char) := do
  let ds ← underscored? Char.isDigit s
  if ds.head? = some '0' ∧ ds ≠ ['0'] then none else some ds

/-- The value of a digit in a base of up to sixteen. -/
def digitValue (c : Char) : Nat :=
  if c.isDigit then c.toNat - '0'.toNat else c.toLower.toNat - 'a'.toNat + 10

/-- The character is a digit of the base. -/
def isDigitOf (base : Nat) (c : Char) : Bool :=
  (c.isDigit || ('a' ≤ c.toLower && c.toLower ≤ 'f')) && digitValue c < base

/-- The number that underscored digits of a base spell. -/
def inBase? (base : Nat) (s : List Char) : Option Int :=
  (underscored? (isDigitOf base) s).map fun ds =>
    ((ds.foldl (fun n c => base * n + digitValue c) 0 : Nat) : Int)

/-- An integer of any size: decimal with an optional sign, or without one in another base. -/
def integer? : List Char → Option Int
  | '0' :: 'x' :: s => inBase? 16 s
  | '0' :: 'o' :: s => inBase? 8 s
  | '0' :: 'b' :: s => inBase? 2 s
  | s => (wholeDigits? (splitSign s).2).map fun ds =>
    let n : Int := Nat.ofDigitChars 10 ds 0
    if (splitSign s).1 then -n else n

/-- The value of an integer, which has at most a hundred and twenty-eight bits, signed or not. -/
def ofInteger? (n : Int) : Option Node :=
  if -(1 <<< 127 : Nat) ≤ n ∧ n < (1 <<< 128 : Nat) then some (.integer n) else none

/-- The exponent of a floating-point number: nothing, or an `e` of either case and an integer that
may have leading zeros. -/
def exponent? : List Char → Option Int
  | [] => some 0
  | c :: s =>
    if c = 'e' ∨ c = 'E' then
      (underscored? Char.isDigit (splitSign s).2).map fun ds =>
        let n : Int := Nat.ofDigitChars 10 ds 0
        if (splitSign s).1 then -n else n
    else none

/-- The places after the point, if there is one, and the text after them. -/
def places? : List Char → Option (List Char × List Char)
  | '.' :: s => do
    let ds ← underscored? Char.isDigit (s.takeWhile fun c => c.isDigit || c = '_')
    return (ds, s.dropWhile fun c => c.isDigit || c = '_')
  | s => some ([], s)

/-- A floating-point number: one of the words `inf` and `nan`, or a decimal numeral that does not
overflow. -/
def real? (s : List Char) : Option Double :=
  let (negative, body) := splitSign s
  if body = "inf".toList then some (.infinite negative)
  else if body = "nan".toList then some .nan
  else do
    let whole ← wholeDigits? (body.takeWhile fun c => c.isDigit || c = '_')
    let rest := body.dropWhile fun c => c.isDigit || c = '_'
    let (places, rest) ← places? rest
    let e ← exponent? rest
    let x := Double.ofNumeral negative ⟨Nat.ofDigitChars 10 (whole ++ places) 0, e - places.length⟩
    if x.isFinite then some x else none

/-! ### Dates and times of day -/

/-- A number of exactly `width` digits at the front, at most `most`, and the text after it. -/
def field? (width most : Nat) (s : List Char) : Option (Nat × List Char) := do
  let n ← natOf? (s.take width)
  if (s.take width).length = width ∧ n ≤ most then some (n, s.drop width) else none

/-- The text after a date at its front. -/
def afterDate? (s : List Char) : Option (List Char) := do
  let (year, s) ← field? 4 9999 s
  let (month, s) ← field? 2 12 (← after? '-' s)
  let (day, s) ← field? 2 31 (← after? '-' s)
  if (Date.mk? year month day).isSome then some s else none

/-- The text after the fraction of a second at its front, if there is one. -/
def afterFraction? : List Char → Option (List Char)
  | '.' :: s => if (spanDigits s).1 = [] then none else some (spanDigits s).2
  | s => some s

/-- The text after a time of day at its front. The seconds may be left out. -/
def afterTime? (s : List Char) : Option (List Char) := do
  let (_, s) ← field? 2 23 s
  let (_, s) ← field? 2 59 (← after? ':' s)
  match s with
  | ':' :: s => afterFraction? (← field? 2 60 s).2
  | s => some s

/-- The text is the offset of a zone. -/
def isOffset (s : List Char) : Bool :=
  match s with
  | ['Z'] | ['z'] => true
  | c :: s => (c = '+' || c = '-') && (do
      let (_, s) ← field? 2 23 s
      let (_, s) ← field? 2 59 (← after? ':' s)
      return s.isEmpty : Option Bool).getD false
  | [] => false

/-- The text is a date, a time of day, or both with or without the offset of a zone. -/
def isMoment (s : List Char) : Bool :=
  match afterDate? s with
  | some [] => true
  | some (c :: s) =>
    (c = 'T' || c = 't' || c = ' ') &&
      match afterTime? s with
      | some rest => rest.isEmpty || isOffset rest
      | none => false
  | none => (afterTime? s).map (·.isEmpty) == some true

/-! ### Scalars -/

/-- The value of a scalar without quotes. An integer that is too large is no floating-point number
instead. -/
def scalar? (s : List Char) : Option Node :=
  if s = "true".toList then some (.bool true)
  else if s = "false".toList then some (.bool false)
  else match integer? s with
    | some n => ofInteger? n
    | none => ((real? s).map .real).or <|
      if isMoment s then some (.moment (String.ofList s)) else none

/-- The characters of scalars without quotes. -/
def isScalarChar (c : Char) : Bool :=
  c.isAlphanum || c = '_' || c = '+' || c = '-' || c = '.' || c = ':'

/-- A scalar at the front, and the text after it. A space after a date belongs to the scalar if a
digit follows it. -/
def takeScalar? (s : List Char) : Option (Node × List Char) :=
  let first := s.takeWhile isScalarChar
  let rest := s.dropWhile isScalarChar
  match rest with
  | ' ' :: c :: t =>
    if afterDate? first = some [] ∧ c.isDigit then
      (scalar? (first ++ ' ' :: (c :: t).takeWhile isScalarChar)).map
        (·, (c :: t).dropWhile isScalarChar)
    else (scalar? first).map (·, rest)
  | _ => (scalar? first).map (·, rest)

end Keyset.Toml
