import Keyset.Fault
import Keyset.Query.Clause
import Keyset.Sql.Dialect
import Keyset.Toml.Reader

/-!
# Settings

The settings of a table are read from a TOML document. Each of them has a default, so the empty
document is one; keys of other names are ignored.

* `Settings.ofDocument_nil` : the empty document holds the defaults.
-/

namespace Keyset

open Toml

/-- How a page finds out whether rows follow it. -/
inductive Lookahead
  /-- A second query asks for the first row past the page. -/
  | probe
  /-- The page is asked for with one row more, which is cut off. -/
  | overFetch
deriving DecidableEq

/-- The settings of a table. -/
structure Settings where
  /-- The dialect of the statements. -/
  dialect : Dialect := .sqlite
  /-- The usual number of rows of a page. -/
  pageSize : UInt64 := 10
  /-- The usual column of the key. -/
  key : String := "id"
  /-- The columns of the times of writing. -/
  stamps : Stamps := {}
  /-- How a page finds out whether rows follow it. -/
  lookahead : Lookahead := .probe
deriving DecidableEq

namespace Lookahead

/-- The lookahead that a settings name stands for. -/
def ofName? (name : String) : Option Lookahead :=
  if name = "probe" then some probe
  else if name = "over-fetch" then some overFetch
  else none

end Lookahead

namespace Settings

/-- A name: a string, or a table with that one key and nothing in it. -/
def name? : Node → Option String
  | .text s => some s
  | .table _ [(key, .array [])] => some key
  | .table _ [(key, .table _ [])] => some key
  | _ => none

/-- A string. -/
def text? : Node → Option String
  | .text s => some s
  | _ => none

/-- A count: an integer that fits into sixty-four unsigned bits. -/
def count? : Node → Option UInt64
  | .integer n => if 0 ≤ n ∧ n < UInt64.size then some (UInt64.ofNat n.toNat) else none
  | _ => none

/-- The value of a key, or the default if the key is not set. -/
def setting {α : Type} (es : Entries) (key : String) (default : α) (read : Node → Option α) :
    Except Fault α :=
  match es.lookup key with
  | none => .ok default
  | some v =>
    match read v with
    | some a => .ok a
    | none => .error (.settings ("invalid value for " ++ key))

/-- The settings in a document. -/
def ofDocument (es : Entries) : Except Fault Settings := do
  let usual : Settings := {}
  let dialect ← setting es "dialect" usual.dialect (fun v => (name? v).bind Dialect.ofName?)
  let pageSize ← setting es "page_size" usual.pageSize count?
  let key ← setting es "key_field" usual.key text?
  let created ← setting es "created_at" usual.stamps.created text?
  let updated ← setting es "updated_at" usual.stamps.updated text?
  let lookahead ← setting es "lookahead" usual.lookahead
    (fun v => (name? v).bind Lookahead.ofName?)
  return { dialect, pageSize, key, stamps := { created, updated }, lookahead }

/-- Reads settings from the text of a document. -/
def read (s : String) : Except Fault Settings :=
  match Toml.read? s.toList with
  | some es => ofDocument es
  | none => .error (.settings "invalid document")

theorem ofDocument_nil : ofDocument [] = .ok {} := rfl

end Settings

end Keyset
