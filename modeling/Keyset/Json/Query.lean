import Keyset.Json.Shape
import Keyset.Query.Basic

/-!
# Queries in JSON

A query is an object such as

    {"columns": {"id": true}, "where": {"status": "open", "price": {"$gt": 100}},
     "order": {"createdAt": false}, "limit": 10, "offset": 20}

with `projection`, `predicate` and `ordering` as other names of its first three members. Members of
other names are ignored. The members are looked at in the order in which they stand here, and the
first misfit is the fault.
-/

namespace Keyset

open Json

namespace Operator

/-- The operator that a name stands for. -/
def ofName? (name : String) : Option Operator :=
  if name = "$eq" then some eq
  else if name = "$ne" then some ne
  else if name = "$gt" then some gt
  else if name = "$gte" then some ge
  else if name = "$lt" then some lt
  else if name = "$lte" then some le
  else none

end Operator

namespace Comparison

/-- The comparison of a field by a named operator. The operand is looked at before the name. -/
def ofJson (field name : String) (operand : Json) : Except Fault Comparison := do
  let v ← operand.asValue field
  match Operator.ofName? name with
  | some op => .ok ⟨op, v⟩
  | none => .error (.unknownOperator field name)

end Comparison

namespace Condition

/-- The condition on a field: an object of operators, or the value itself. -/
def ofJson (field : String) : Json → Except Fault Condition
  | .object [] => .error (.misfit (.noOperators field))
  | .object operators =>
    (operators.mapM fun (name, operand) => Comparison.ofJson field name operand).map .all
  | j => (j.asValue field).map .is

end Condition

namespace Predicate

/-- The filter: a string is a raw expression, an object holds conditions on fields. -/
def ofJson : Json → Except Fault Predicate
  | .text raw => .ok { raw := some raw }
  | j => do
    let members ← j.asObject "where"
    let fields ← members.mapM fun (field, c) => (Condition.ofJson field c).map (field, ·)
    return { fields }

end Predicate

namespace Record

/-- The values to write. -/
def ofJson (j : Json) : Except Fault Record := do
  (← j.asObject "record").mapM fun (field, v) => (v.asValue field).map (field, ·)

end Record

namespace Query

/-- The columns with their flags. -/
def columnsOfJson (j : Json) : Except Fault (List (String × Bool)) :=
  (j.asObject "columns").map (·.map fun (field, flag) => (field, flag.isTruthy))

/-- The columns to sort by; a flag that is on stands for the ascending direction. -/
def orderingOfJson (j : Json) : Except Fault (List (String × Direction)) :=
  (j.asObject "order").map (·.map fun (field, flag) => (field, .ofFlag flag.isTruthy))

/-- The query. -/
def ofJson (j : Json) : Except Fault Query := do
  let members ← j.asObject "options"
  let columns ← readOr (either? "columns" "projection" members) [] columnsOfJson
  let predicate ← readOr (either? "where" "predicate" members) {} Predicate.ofJson
  let ordering ← readOr (either? "order" "ordering" members) [] orderingOfJson
  let limit ← readOr (members.lookup "limit") none fun n => (n.asCount "limit").map some
  let offset ← readOr (members.lookup "offset") none fun n => (n.asCount "offset").map some
  return { columns, predicate, ordering, limit, offset }

end Query

end Keyset
