import Keyset.Json.Query
import Keyset.Page.Request
import Keyset.Query.Join

/-!
# Page and join requests in JSON

    {"sinceId": "'2024-01-01 10:00:00'", "maxId": 3, "limit": 20, "where": {"status": "open"},
     "columns": {"id": true}, "keyField": "publishedAt", "reverse": true}

    {"table": "users", "inner": ["authorId:id"], "options": {"limit": 5}}

Of two names of one member the one in camel case counts. A cursor that is null counts as absent, but
only after the name was chosen.
-/

namespace Keyset

open Json

namespace Cursor

/-- A cursor: the text of one, any other text as a key of its own, or a scalar key. -/
def ofJson (field : String) : Json → Except Fault Cursor
  | .text s =>
    match Cursor.ofText s with
    | .ok c => .ok c
    | .error _ => .ok (.ofKey (.text s))
  | j => (j.asValue field).map ofKey

/-- A cursor that is there and not null. -/
def ofMember (field : String) (member : Option Json) : Except Fault (Option Cursor) :=
  match member with
  | none | some .null => .ok none
  | some j => (ofJson field j).map some

end Cursor

namespace PageRequest

/-- The request for a page. -/
def ofJson (j : Json) : Except Fault PageRequest := do
  let members ← j.asObject "page request"
  let since ← Cursor.ofMember "sinceId" (either? "sinceId" "since_id" members)
  let bound ← Cursor.ofMember "maxId" (either? "maxId" "max_id" members)
  let limit ← readOr (members.lookup "limit") none fun n => (n.asCount "limit").map some
  let predicate ← readOr (either? "where" "predicate" members) {} Predicate.ofJson
  let columns ← readOr (either? "columns" "projection" members) []
    Query.columnsOfJson
  let key ← readOr (either? "keyField" "key_field" members) none fun k =>
    (k.asText "keyField").map some
  let reverse := ((members.lookup "reverse").map isTruthy).getD false
  return { since, bound, limit, predicate, columns, key, reverse }

end PageRequest

namespace JoinRequest

/-- The column pairs: a list of strings, or one string. -/
def pairsOfJson : Json → Except Fault (List String)
  | .array items => items.mapM (asText "inner pair")
  | .text pair => .ok [pair]
  | _ => .error (.misfit .notPairs)

/-- The request for a join. -/
def ofJson (j : Json) : Except Fault JoinRequest := do
  let members ← j.asObject "join request"
  let table ← readOr (members.lookup "table") "" (asText "table")
  let pairs ← readOr (members.lookup "inner") [] pairsOfJson
  let query ← readOr (members.lookup "options") {} Query.ofJson
  return { table, pairs, query }

end JoinRequest

end Keyset
