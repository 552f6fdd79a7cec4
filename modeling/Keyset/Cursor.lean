import Keyset.Value

/-!
# Cursors

A cursor is a key at which a walk over a table resumes. It travels as the literal of the key, which
shows whole seconds only, so the timestamp of a cursor has no nanoseconds.

* `Cursor.ofKey_value` : the key of a cursor makes the same cursor again.
-/

namespace Keyset

/-- A resume point. -/
structure Cursor where
  /-- The key. -/
  value : Value
  /-- A timestamp is at the beginning of its second. -/
  whole : value.wholeSecond = value
deriving DecidableEq

namespace Cursor

/-- The cursor at a key. -/
def ofKey (key : Value) : Cursor := ⟨key.wholeSecond, key.wholeSecond_wholeSecond⟩

/-- The text of a cursor. -/
def text (c : Cursor) : String := c.value.literal

/-- Reads the text of a cursor. -/
def ofText (s : String) : Except Fault Cursor := (Value.ofLiteral s).map ofKey

/-- The two cursors stand at keys that compare as equal. -/
def sameAs (c d : Cursor) : Bool := c.value.sameAs d.value

theorem ofKey_value (c : Cursor) : ofKey c.value = c := by
  cases c with
  | mk value whole => simp [ofKey, whole]

end Cursor

end Keyset
