import Keyset.Text.Quoted

/-!
# Dialects

The stores that a statement can be written for. They differ in the quote character of names and in
the call that gives the server's time.
-/

namespace Keyset

open Text

/-- A flavour of SQL. -/
inductive Dialect
  /-- SQLite. -/
  | sqlite
  /-- PostgreSQL. -/
  | postgreSQL
  /-- MySQL. -/
  | mysql
deriving DecidableEq

namespace Dialect

/-- The dialect that a settings name stands for. -/
def ofName? (name : String) : Option Dialect :=
  if name = "sqlite" ∨ name = "sqlite3" then some sqlite
  else if name = "postgresql" ∨ name = "postgres" then some postgreSQL
  else if name = "mysql" then some mysql
  else none

/-- The character around a name. -/
def nameMark : Dialect → Char
  | sqlite | postgreSQL => '\x22'
  | mysql => '\x60'

/-- The call that gives the server's time. -/
def clockCall : Dialect → String
  | sqlite | postgreSQL => "CURRENT_TIMESTAMP"
  | mysql => "CURRENT_TIMESTAMP()"

/-- A name between its marks, with every mark inside it written twice. -/
def name (d : Dialect) (s : String) : List Char := quote d.nameMark s.toList

end Dialect

end Keyset
