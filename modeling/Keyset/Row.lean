import Keyset.Value

/-!
# Rows

A row that the store answers with: columns with their values, in the order of the answer. Two
columns may have one name.

* `Row.get?_push_of_isSome` : a column further on never hides an earlier one of its name.
-/

namespace Keyset

/-- A row of a result. -/
abbrev Row := List (String × Value)

namespace Row

/-- The value of the first column with the given name. -/
def get? (r : Row) (column : String) : Option Value := List.lookup column r

/-- The row with one more column at the end. -/
def push (r : Row) (column : String) (v : Value) : Row := r ++ [(column, v)]

theorem get?_push_of_isSome {r : Row} {column : String} (h : (r.get? column).isSome = true)
    (name : String) (v : Value) : (r.push name v).get? column = r.get? column := by
  obtain ⟨w, hw⟩ := Option.isSome_iff_exists.1 h
  have : List.lookup column r = some w := hw
  simp [get?, push, List.lookup_append, this]

end Row

end Keyset
