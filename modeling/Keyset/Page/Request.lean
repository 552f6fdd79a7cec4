import Keyset.Cursor
import Keyset.Query.Basic
import Keyset.Row

/-!
# Pages

A page request asks for one stretch of a table in the order of a key. The answer is a page: rows,
and the cursor at which the next page begins.
-/

namespace Keyset

/-- A request for one page. -/
structure PageRequest where
  /-- The key at which the page begins, itself included. -/
  since : Option Cursor := none
  /-- The key before which the walk ends, itself excluded. -/
  bound : Option Cursor := none
  /-- The number of rows of a page, if it is not the usual one. -/
  limit : Option UInt64 := none
  /-- The filter of all pages. -/
  predicate : Predicate := {}
  /-- Columns with a flag that includes or excludes them. -/
  columns : List (String × Bool) := []
  /-- The column of the key, if it is not the usual one. -/
  key : Option String := none
  /-- The walk goes up the key; without this it goes down. -/
  reverse : Bool := false
deriving DecidableEq

/-- One page of rows. -/
structure Page where
  /-- The rows. -/
  rows : List Row
  /-- Where the next page begins; nothing if no row follows. -/
  next : Option Cursor
deriving DecidableEq

end Keyset
