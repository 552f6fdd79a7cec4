import Keyset.Double

/-!
# TOML documents

A document is a tree of tables. A table remembers how it came to be, because that decides what may
still be added to it: each key is set once, a header opens a table once, and a table written in
braces is complete.

* `Toml.set` adds a key with its value, `Toml.openTable` and `Toml.openItem` follow a header.
* `Toml.set_eq_none_of_mem` : a key is never set twice.
-/

namespace Keyset.Toml

/-- How a table came to be. -/
inductive Origin
  /-- It was written in braces. -/
  | braces
  /-- A header names it on the way to another table. -/
  | implied
  /-- A dotted key leads through it. -/
  | dotted
  /-- A header opens it. -/
  | header
deriving DecidableEq

/-- A value of a document. -/
inductive Node
  /-- A string. -/
  | text (s : String)
  /-- An integer. -/
  | integer (n : Int)
  /-- A floating-point number. -/
  | real (x : Double)
  /-- A truth value. -/
  | bool (b : Bool)
  /-- A date, a time of day or both, as written. -/
  | moment (s : String)
  /-- A list in brackets. -/
  | array (items : List Node)
  /-- A table. -/
  | table (origin : Origin) (entries : List (String × Node))
  /-- A list of tables, each opened by a header. The last one is open. -/
  | tables (items : List (List (String × Node)))

/-- The keys of a table with their values, in their order. -/
abbrev Entries := List (String × Node)

/-- The entries with the value of a key changed. -/
def replace (key : String) (v : Node) (es : Entries) : Entries :=
  es.map fun (k, w) => if k = key then (k, v) else (k, w)

/-- Changes the last table of a list. -/
def atLast (change : Entries → Option Entries) (items : List Entries) : Option (List Entries) := do
  let last ← items.getLast?
  return items.dropLast ++ [← change last]

/-- Sets a key at the end of a path of keys. The path leads through tables made by dotted keys or
implied by headers and through the last tables of lists, or makes tables. Unless it is empty, it
ends at a table made by dotted keys: any other table takes keys only below its header. -/
def set (path : List String) (key : String) (v : Node) (es : Entries) : Option Entries :=
  match path with
  | [] => if (es.lookup key).isSome then none else some (es ++ [(key, v)])
  | step :: path =>
    match es.lookup step with
    | none => (set path key v []).map fun inner => es ++ [(step, .table .dotted inner)]
    | some (.table .dotted inner) =>
      (set path key v inner).map fun inner => replace step (.table .dotted inner) es
    | some (.table .implied inner) =>
      if path = [] then none
      else (set path key v inner).map fun inner => replace step (.table .implied inner) es
    | some (.tables items) =>
      if path = [] then none
      else (atLast (set path key v) items).map fun items => replace step (.tables items) es
    | some _ => none

/-- Changes the table at the path of a header, which leads through tables that are not in braces
and through the last tables of lists, or makes implied tables. -/
def atPath (path : List String) (change : Entries → Option Entries) (es : Entries) :
    Option Entries :=
  match path with
  | [] => change es
  | step :: path =>
    match es.lookup step with
    | none => (atPath path change []).map fun inner => es ++ [(step, .table .implied inner)]
    | some (.table .braces _) => none
    | some (.table origin inner) =>
      (atPath path change inner).map fun inner => replace step (.table origin inner) es
    | some (.tables items) =>
      (atLast (atPath path change) items).map fun items => replace step (.tables items) es
    | some _ => none

/-- Opens the table that a header names. It may exist only as implied. -/
def openTable (key : String) (es : Entries) : Option Entries :=
  match es.lookup key with
  | none => some (es ++ [(key, .table .header [])])
  | some (.table .implied inner) => some (replace key (.table .header inner) es)
  | some _ => none

/-- Opens one more table in the list that a header names. -/
def openItem (key : String) (es : Entries) : Option Entries :=
  match es.lookup key with
  | none => some (es ++ [(key, .tables [[]])])
  | some (.tables items) => some (replace key (.tables (items ++ [[]])) es)
  | some _ => none

theorem set_eq_none_of_mem {key : String} {es : Entries} (h : (es.lookup key).isSome = true)
    (v : Node) : set [] key v es = none := if_pos h

end Keyset.Toml
