import Keyset.Query.Basic
import Keyset.Sql.Fragment

/-!
# Clauses

The clauses of statements as fragments, one function for each kind of clause.
-/

namespace Keyset

open Fragment

namespace Operator

/-- The token of an operator. -/
def token : Operator → Token
  | eq => .eq
  | ne => .ne
  | lt => .lt
  | gt => .gt
  | le => .le
  | ge => .ge

end Operator

namespace Direction

/-- The token of a direction. -/
def token : Direction → Token
  | ascending => .ASC
  | descending => .DESC

end Direction

namespace Comparison

/-- A comparison as a condition. Equality with the absent value, and the lack of it, are null
tests. -/
def fragment (c : Comparison) (left : Fragment) : Fragment :=
  match c.operator, c.operand with
  | .eq, .null => left.isNull
  | .ne, .null => left.isNotNull
  | op, v => left.compare op.token v

end Comparison

namespace Condition

/-- The condition on the column `field`. It is empty if it has no comparisons. -/
def fragment (c : Condition) (field : String) : Fragment :=
  match c with
  | is .null => (ident field).isNull
  | is v => (ident field).compare .eq v
  | all cs => conjunction (cs.map fun c => c.fragment (ident field))

end Condition

namespace Clause

/-- The included columns, or all columns if none is included. -/
def columns (cs : List (String × Bool)) : Fragment :=
  let names := join .comma ((Query.included cs).map ident)
  if names.isEmpty then token .star else names

/-- The filter of rows. Raw text stands alone as it is, and in parentheses before conditions. -/
def predicate (p : Predicate) : Fragment :=
  let conditions := conjunction (p.fields.map fun (field, c) => c.fragment field)
  token .WHERE ++ match p.raw with
    | none => if conditions.isEmpty then token .TRUE else conditions
    | some text =>
      if conditions.isEmpty then single (.raw text)
      else (single (.raw text)).parens.push (.token .AND) ++ conditions

/-- The order of rows, if there is one. -/
def ordering? (entries : List (String × Direction)) : Option Fragment :=
  if entries.isEmpty then none
  else some <| tokens [.ORDER, .BY] ++
    join .comma (entries.map fun (field, d) => (ident field).push (.token d.token))

/-- The largest number of rows. -/
def limit (n : UInt64) : Fragment := (token .LIMIT).push (.count n)

/-- The number of rows to skip. -/
def offset (n : UInt64) : Fragment := (token .OFFSET).push (.count n)

theorem ordering?_cons (e : String × Direction) (es : List (String × Direction)) :
    ordering? (e :: es) = some (tokens [.ORDER, .BY] ++
      join .comma ((e :: es).map fun e => (ident e.1).push (.token e.2.token))) := rfl

end Clause

/-- The names of the columns that keep the times of writing. -/
structure Stamps where
  /-- The column of the time of creation. -/
  created : String := "createdAt"
  /-- The column of the time of the last change. -/
  updated : String := "updatedAt"
deriving DecidableEq

namespace Clause

/-- The columns of a new row: those of the record and then both stamps. -/
def insertedColumns (r : Record) (s : Stamps) : Fragment :=
  (join .comma ((r.map (·.1) ++ [s.created, s.updated]).map ident)).parens

/-- The values of a new row: those of the record and then the server's time, twice. -/
def insertedValues (r : Record) : Fragment :=
  (join .comma (r.map (fun f => literal f.2) ++ [single .now, single .now])).parens

/-- The assignments of a change: those of the record and then the stamp of the change. -/
def assignment (r : Record) (s : Stamps) : Fragment :=
  token .SET ++ join .comma
    (r.map (fun f => (ident f.1).compare .eq f.2) ++
      [((ident s.updated).push (.token .eq)).push .now])

end Clause

end Keyset
