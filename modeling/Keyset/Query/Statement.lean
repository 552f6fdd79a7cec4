import Keyset.Query.Join

/-!
# Statements

A statement keeps what it was made of until it is written, so a store can be described by the
queries that it answers, and only the text is bound to a dialect.
-/

namespace Keyset

open Fragment

/-- A statement for the store. -/
inductive Statement
  /-- Asks for rows of a table, joined with another table or not. -/
  | select (table : String) (query : Query) (join : Option Join)
  /-- Adds a row. -/
  | insert (table : String) (record : Record) (stamps : Stamps)
  /-- Changes rows. -/
  | update (table : String) (record : Record) (stamps : Stamps) (query : Query)
  /-- Removes rows. -/
  | delete (table : String) (query : Query)
  /-- Trusted text. -/
  | verbatim (text : String)
deriving DecidableEq

namespace Statement

/-- The table that a statement is about. -/
def source (table : String) : Fragment := (token .FROM).push (.ident table)

/-- The clauses at the end of a statement, each put after those before it if it is there. -/
def tail (query : Query) (withOffset : Bool) : Fragment :=
  (((Clause.predicate query.predicate).extend
    ((Clause.ordering? query.ordering).getD empty)).extend
    ((query.limit.map Clause.limit).getD empty)).extend
    (if withOffset then (query.offset.map Clause.offset).getD empty else empty)

/-- The pieces of a statement. Only a selection has columns and an offset. -/
def fragment : Statement → Fragment
  | select table query join =>
    token .SELECT ++ Clause.columns query.columns ++ source table ++
      (join.map (·.fragment table)).getD empty ++ tail query true
  | insert table record stamps =>
    tokens [.INSERT, .INTO] ++ ident table ++
      (Clause.insertedColumns record stamps).push (.token .VALUES) ++ Clause.insertedValues record
  | update table record stamps query =>
    token .UPDATE ++ ident table ++ Clause.assignment record stamps ++ tail query false
  | delete table query => token .DELETE ++ source table ++ tail query false
  | verbatim text => single (.raw text)

/-- The text of a statement. -/
def render (d : Dialect) (s : Statement) : String := s.fragment.render d

theorem tail_eq (query : Query) (withOffset : Bool) :
    tail query withOffset = Clause.predicate query.predicate ++
      (Clause.ordering? query.ordering).getD empty ++
      (query.limit.map Clause.limit).getD empty ++
      (if withOffset then (query.offset.map Clause.offset).getD empty else empty) := rfl

end Statement

end Keyset
