import Keyset.Fault
import Keyset.Json.Basic
import Keyset.Value

/-!
# Shapes of JSON values

What a part of a request is required to be: a flag, an object, a count, a text or a literal.

* `Json.toCount?_eq_some_iff` : a count is an integer that fits into sixty-four unsigned bits.
-/

namespace Keyset.Json

/-- The value taken as a flag: null, `false`, zero and the empty string are off. -/
def isTruthy : Json → Bool
  | null => false
  | bool b => b
  | integer n => n ≠ 0
  | real x => !x.isZero
  | text s => s ≠ ""
  | array _ | object _ => true

/-- The members of an object. -/
def asObject (what : String) : Json → Except Fault (List (String × Json))
  | object members => .ok members
  | _ => .error (.misfit (.notObject what))

/-- The count that an integer is. -/
def toCount? : Json → Option UInt64
  | integer n => if 0 ≤ n ∧ n < UInt64.size then some (UInt64.ofNat n.toNat) else none
  | _ => none

/-- The count that the value has to be. -/
def asCount (what : String) (j : Json) : Except Fault UInt64 :=
  match j.toCount? with
  | some n => .ok n
  | none => .error (.misfit (.notCount what))

/-- The text of a string. -/
def asText (what : String) : Json → Except Fault String
  | text s => .ok s
  | _ => .error (.misfit (.notText what))

/-- Reads a member if it is there. -/
def readOr {α : Type} (member : Option Json) (absent : α) (read : Json → Except Fault α) :
    Except Fault α :=
  match member with
  | some j => read j
  | none => .ok absent

/-- The value of an integer: a signed integer of sixty-four bits if it fits, else the nearest
double. -/
def valueOfInteger (n : Int) : Value :=
  if Int64.minValue.toInt ≤ n ∧ n ≤ Int64.maxValue.toInt then .integer (Int64.ofInt n)
  else .real (.ofInt n)

/-- The value that the scalar given for a field is. -/
def asValue (field : String) : Json → Except Fault Value
  | null => .ok .null
  | bool b => .ok (.bool b)
  | integer n => .ok (valueOfInteger n)
  | real x => .ok (.real x)
  | text s => .ok (.text s)
  | array _ | object _ => .error (.misfit (.notLiteral field))

theorem toCount?_eq_some_iff {j : Json} {n : UInt64} :
    j.toCount? = some n ↔ j = integer n.toNat := by
  cases j with
  | integer k =>
    have hsize : UInt64.size = 18446744073709551616 := rfl
    by_cases h : 0 ≤ k ∧ k < UInt64.size
    · simp only [toCount?, if_pos h, Option.some.injEq, integer.injEq]
      constructor
      · rintro rfl
        rw [UInt64.toNat_ofNat_of_lt' (by omega)]
        omega
      · rintro rfl
        simp
    · simp only [toCount?, if_neg h, integer.injEq]
      have := n.toNat_lt
      exact ⟨fun e => absurd e (by simp), fun e => absurd e (by omega)⟩
  | _ => simp [toCount?]

end Keyset.Json
