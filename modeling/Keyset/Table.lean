import Keyset.Page.Walk
import Keyset.Plan
import Keyset.Settings

/-!
# Tables

A table has a name and settings, and its operations are plans. Every operation but the pages asks
for at most one statement, and no operation asks for one before its whole request was read.
-/

namespace Keyset

/-- A table of the store. -/
structure Table where
  /-- The name. -/
  name : String
  /-- The settings. -/
  settings : Settings := {}
  /-- A table has a name. -/
  named : name ≠ ""

/-- A call of one of the operations. -/
inductive Call
  /-- Asks for rows. -/
  | find (query : Query)
  /-- Adds a row. -/
  | insert (record : Record)
  /-- Changes rows. -/
  | update (record : Record) (query : Query)
  /-- Removes rows. -/
  | delete (query : Query)
  /-- Asks for rows of a join. -/
  | join (r : JoinRequest)
  /-- Runs trusted text. -/
  | verbatim (text : String)
  /-- Asks for a page. -/
  | page (r : PageRequest)
deriving DecidableEq

/-- The answer to a call. -/
inductive Answer
  /-- The rows that the store answered with. -/
  | rows (rs : List Row)
  /-- A page. -/
  | page (p : Page)
deriving DecidableEq

namespace Table

/-- The table with a name and settings. -/
def make (name : String) (settings : Settings) : Except Fault Table :=
  if h : name = "" then .error .unnamedTable else .ok ⟨name, settings, h⟩

variable (t : Table)

/-- The rows that a query asks for. -/
def find (query : Query) : Plan (List Row) := .ofStatement (.select t.name query none)

/-- Adds a row. -/
def insert (record : Record) : Plan (List Row) :=
  .ofStatement (.insert t.name record t.settings.stamps)

/-- Changes the rows that a query asks for. -/
def update (record : Record) (query : Query) : Plan (List Row) :=
  .ofStatement (.update t.name record t.settings.stamps query)

/-- Removes the rows that a query asks for. -/
def delete (query : Query) : Plan (List Row) := .ofStatement (.delete t.name query)

/-- The rows of the table joined with another one. -/
def join (r : JoinRequest) : Plan (List Row) := do
  let j ← Plan.lift (Join.read r.table r.pairs)
  Plan.ofStatement (.select t.name r.query (some j))

/-- The page whose end is found by a second query: the key of the last row leads to the first row
past it. -/
def probedPage (w : Walk) : Plan Page := do
  let rows ← t.find (w.page 0)
  match rows.getLast? with
  | none => return ⟨rows, none⟩
  | some last =>
    let key ← Plan.lift (w.keyOf last)
    let probed ← t.find (w.probe key)
    match probed.head? with
    | none => return ⟨rows, none⟩
    | some row => return ⟨rows, some (← Plan.lift (w.keyOf row))⟩

/-- The page that is asked for with one row more, which shows where the next page begins. An empty
page has no next one. -/
def overFetchedPage (w : Walk) : Plan Page := do
  let rows ← t.find (w.page 1)
  let n := w.limit.toNat
  match rows.drop n with
  | [] => return ⟨rows.take n, none⟩
  | row :: _ =>
    if n = 0 then return ⟨rows.take n, none⟩
    else return ⟨rows.take n, some (← Plan.lift (w.keyOf row))⟩

/-- One page of rows and the cursor of the next page. -/
def page (r : PageRequest) : Plan Page :=
  let w := Walk.ofRequest r t.settings.key t.settings.pageSize
  match t.settings.lookahead with
  | .probe => t.probedPage w
  | .overFetch => t.overFetchedPage w

/-! ### Calls -/

/-- The plan of a call. -/
def plan : Call → Plan Answer
  | .find query => .rows <$> t.find query
  | .insert record => .rows <$> t.insert record
  | .update record query => .rows <$> t.update record query
  | .delete query => .rows <$> t.delete query
  | .join r => .rows <$> t.join r
  | .verbatim text => .rows <$> Plan.verbatim text
  | .page r => .page <$> t.page r

end Table

end Keyset
