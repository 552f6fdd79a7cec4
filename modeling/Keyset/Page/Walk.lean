import Keyset.Page.Request

/-!
# Walks

A walk visits the rows of a table in the order of a key, page by page, up the key or down. From the
request for one page follow the queries for its rows and for what comes after them.

* `Walk.page` begins at the resume point, itself included; `Walk.probe` looks past the last row.
* `Walk.mem_included_withKey` : a page that names its columns names the key.
-/

namespace Keyset

namespace Direction

/-- At a resume point or past it. -/
def resume : Direction → Operator
  | ascending => .ge
  | descending => .le

/-- Past the last row. -/
def beyond : Direction → Operator
  | ascending => .gt
  | descending => .lt

/-- Before the end of the walk. -/
def within : Direction → Operator
  | ascending => .lt
  | descending => .gt

end Direction

/-- One stretch of a walk. -/
structure Walk where
  /-- The column of the key. -/
  key : String
  /-- The direction of the walk. -/
  direction : Direction
  /-- The number of rows of a page. -/
  limit : UInt64
  /-- The rows that the walk visits at all. -/
  window : Predicate
  /-- Columns with a flag that includes or excludes them. -/
  columns : List (String × Bool)
  /-- The resume point. -/
  since : Option Cursor
deriving DecidableEq

/-- The sum of two counts, which stops at the largest count. -/
def addCounts (a b : UInt64) : UInt64 := UInt64.ofNat (min (a.toNat + b.toNat) (UInt64.size - 1))

namespace Walk

/-- The columns with the key included, unless no column is included and so all of them are meant. -/
def withKey (key : String) (columns : List (String × Bool)) : List (String × Bool) :=
  let names := Query.included columns
  if names = [] ∨ key ∈ names then columns else columns ++ [(key, true)]

/-- The walk that a request asks for, with the usual key and page size where it names none. -/
def ofRequest (r : PageRequest) (usualKey : String) (usualLimit : UInt64) : Walk :=
  let key := r.key.getD usualKey
  let direction := Direction.ofFlag r.reverse
  { key
    direction
    limit := r.limit.getD usualLimit
    window := match r.bound with
      | none => r.predicate
      | some c => r.predicate.push key ⟨direction.within, c.value⟩
    columns := withKey key r.columns
    since := r.since }

variable (w : Walk)

/-- The query for the rows of the page and as many more. -/
def page (more : UInt64) : Query where
  columns := w.columns
  predicate := match w.since with
    | none => w.window
    | some c => w.window.push w.key ⟨w.direction.resume, c.value⟩
  ordering := [(w.key, w.direction)]
  limit := some (addCounts w.limit more)

/-- The query for the key of the first row past the last one. -/
def probe (last : Cursor) : Query where
  columns := [(w.key, true)]
  predicate := w.window.push w.key ⟨w.direction.beyond, last.value⟩
  ordering := [(w.key, w.direction)]
  limit := some 1

/-- The cursor at the key of a row. -/
def keyOf (row : Row) : Except Fault Cursor :=
  match row.get? w.key with
  | some v => .ok (.ofKey v)
  | none => .error (.missingKey w.key)

theorem mem_included_withKey {key : String} {columns : List (String × Bool)}
    (h : Query.included columns ≠ []) : key ∈ Query.included (withKey key columns) := by
  by_cases hk : key ∈ Query.included columns
  · rwa [withKey, if_pos (.inr hk)]
  · rw [withKey, if_neg (by simp [h, hk])]
    simp [Query.included]

end Walk

end Keyset
