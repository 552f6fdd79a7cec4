import Keyset.Calendar.Timestamp
import Keyset.Double
import Keyset.Fault
import Keyset.Text.Quoted

/-!
# Values

The scalar values that a store keeps, and their literals. `Value.spelling` writes the literal of a
value and `Value.read?` reads a value from a literal.

* `Value.read?_spelling_text` : a quoted text that is no timestamp is read back.
-/

namespace Keyset

open Decimal Text

/-- A scalar value. -/
inductive Value
  /-- The absent value. -/
  | null
  /-- A truth value. -/
  | bool (b : Bool)
  /-- A signed integer of sixty-four bits. -/
  | integer (n : Int64)
  /-- A double-precision number. -/
  | real (x : Double)
  /-- A text. -/
  | text (s : String)
  /-- A date and a time of day. -/
  | timestamp (t : Timestamp)
deriving DecidableEq

namespace Value

/-- The value is absent. -/
def isNull : Value → Bool
  | null => true
  | _ => false

/-- The integer that the value is. -/
def toInt64? : Value → Option Int64
  | integer n => some n
  | _ => none

/-- The text that the value is. -/
def toText? : Value → Option String
  | text s => some s
  | _ => none

/-- Equality of values that compares doubles as numbers. -/
def sameAs : Value → Value → Bool
  | real x, real y => x.numEq y
  | v, w => v = w

/-- The value with a timestamp cut to its second. -/
def wholeSecond : Value → Value
  | timestamp t => timestamp t.wholeSecond
  | v => v

theorem wholeSecond_wholeSecond (v : Value) : v.wholeSecond.wholeSecond = v.wholeSecond := by
  cases v <;> rfl

/-! ### Writing -/

/-- The quote character of texts and timestamps. -/
def quoteMark : Char := '\x27'

/-- The literal of a value. Texts and timestamps are quoted; a double that is not finite has no
literal of its own and is written as the absent value. -/
def spelling : Value → List Char
  | null => "NULL".toList
  | bool true => "TRUE".toList
  | bool false => "FALSE".toList
  | integer n => intText n.toInt
  | real x => if x.isFinite then x.text else "NULL".toList
  | text s => quote quoteMark s.toList
  | timestamp t => quoteMark :: (t.text ++ [quoteMark])

/-- The literal of a value. -/
def literal (v : Value) : String := String.ofList v.spelling

/-! ### Reading -/

/-- The words that spell a value, in any case of their letters. -/
def ofWord? (s : List Char) : Option Value :=
  let word := s.map Char.toLower
  if word = "null".toList then some null
  else if word = "true".toList then some (bool true)
  else if word = "false".toList then some (bool false)
  else none

/-- The value of a quoted body: a timestamp if it has the form of one, else a text. -/
def ofQuoted (body : List Char) : Value :=
  let s := undouble quoteMark body
  match Timestamp.read? s with
  | some t => timestamp t
  | none => text (String.ofList s)

/-- The integer with a numeral that fits into sixty-four bits. -/
def ofInteger? (s : List Char) : Option Value := do
  let n ← intOf? s
  if Int64.minValue.toInt ≤ n ∧ n ≤ Int64.maxValue.toInt then some (integer (Int64.ofInt n))
  else none

/-- Reads a literal without blanks around it: a word, a quoted body, an integer or a double, tried
in this order. -/
def read? (s : List Char) : Option Value :=
  (ofWord? s).or <| ((between? quoteMark s).map ofQuoted).or <|
    (ofInteger? s).or <| (Double.read? s).map real

/-- Reads a literal with blanks around it. -/
def ofLiteral (s : String) : Except Fault Value :=
  let body := trim s.toList
  match read? body with
  | some v => .ok v
  | none => .error (.badCursor (String.ofList body))

theorem ofWord?_quote (s : List Char) : ofWord? (quoteMark :: s) = none := by
  simp [ofWord?, quoteMark]

theorem read?_spelling_text {s : String} (h : Timestamp.read? s.toList = none) :
    read? (text s).spelling = some (text s) := by
  have hw : ofWord? (quote quoteMark s.toList) = none := ofWord?_quote _
  simp [read?, spelling, hw, between?_quote, ofQuoted, undouble_double, h]

end Value

end Keyset
