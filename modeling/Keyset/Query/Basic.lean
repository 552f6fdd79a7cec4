import Keyset.Value

/-!
# Queries

What a query asks for, said as data: the columns, the filter, the order and the counts. Every list
keeps the order in which it was declared.
-/

namespace Keyset

/-- A way to compare a column to a value. -/
inductive Operator
  | eq
  | ne
  | lt
  | gt
  | le
  | ge
deriving DecidableEq

/-- A comparison of a column to a value. -/
structure Comparison where
  /-- The way to compare. -/
  operator : Operator
  /-- The value. -/
  operand : Value
deriving DecidableEq

/-- What is asked of one column. -/
inductive Condition
  /-- The column has this value. -/
  | is (v : Value)
  /-- All these comparisons hold of the column. -/
  | all (comparisons : List Comparison)
deriving DecidableEq

/-- A filter of rows: a trusted raw expression, if there is one, and conditions on columns. -/
structure Predicate where
  /-- The raw expression. -/
  raw : Option String := none
  /-- The conditions on columns. -/
  fields : List (String × Condition) := []
deriving DecidableEq

/-- A direction of sorting. -/
inductive Direction
  /-- Small values first. -/
  | ascending
  /-- Large values first. -/
  | descending
deriving DecidableEq

/-- Everything that a query may carry. -/
structure Query where
  /-- Columns with a flag that includes or excludes them. -/
  columns : List (String × Bool) := []
  /-- The filter. -/
  predicate : Predicate := {}
  /-- The columns to sort by, the most significant first. -/
  ordering : List (String × Direction) := []
  /-- The largest number of rows. -/
  limit : Option UInt64 := none
  /-- The number of rows to skip. -/
  offset : Option UInt64 := none
deriving DecidableEq

/-- The values to write, column by column. -/
abbrev Record := List (String × Value)

namespace Predicate

/-- The predicate that all rows satisfy. -/
def isEmpty (p : Predicate) : Bool := p.raw.isNone && p.fields.isEmpty

/-- The predicate with one more comparison at the end. -/
def push (p : Predicate) (field : String) (c : Comparison) : Predicate :=
  { p with fields := p.fields ++ [(field, .all [c])] }

end Predicate

namespace Direction

/-- The direction that a flag stands for. -/
def ofFlag (isAscending : Bool) : Direction := if isAscending then ascending else descending

end Direction

namespace Query

/-- The names of the included columns. -/
def included (columns : List (String × Bool)) : List String :=
  (columns.filter (·.2)).map (·.1)

end Query

end Keyset
