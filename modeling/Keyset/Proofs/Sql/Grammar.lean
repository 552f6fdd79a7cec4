import Keyset.Proofs.Sql.Lexemes
import Keyset.Query.Basic

/-!
# A grammar for statements

The statements that a store is asked for, said without the queries that they were made of: names,
literals and counts as they stand in the text.

    SELECT (* | name, ...) FROM name [INNER JOIN name ON column = column AND ...] ending [OFFSET n]
    INSERT INTO name (name, ...) VALUES (entry, ...)
    UPDATE name SET name = entry, ... ending
    DELETE FROM name ending

    ending:  WHERE (TRUE | test AND ...) [ORDER BY name ASC|DESC, ...] [LIMIT n]
    test:    name sign literal | name IS NULL | name IS NOT NULL
    entry:   literal | the call of the server's time

The grammar is over the lexemes of `Lexeme.take?`, so strings are read in the standard syntax, in
which a doubled quote is the only escape, for every dialect.  What becomes of a backslash where a
server gives it a meaning of its own is no part of it.

`Sentence.read?` reads the text of a statement by this grammar.  A reader takes what it reads off
the front of a row of lexemes, and looks at no more of the rest than its first lexeme, to see
whether a series or an optional clause goes on there: `Reader.Reads` says so, and the lemmas about
it follow the grammar.
-/

namespace Keyset

/-! ### What a statement says -/

/-- A condition on a column, with its operand as it is written. -/
inductive Test
  | compare (field : String) (operator : Operator) (operand : String)
  | absent (field : String)
  | present (field : String)
deriving DecidableEq

/-- What is written into a column: a literal, or the server's time. -/
inductive Entry
  | literal (text : String)
  | clock
deriving DecidableEq

/-- A joined table with its equations of columns, each with the table of the column. -/
structure Link where
  table : String
  equations : List ((String × String) × (String × String))
deriving DecidableEq

/-- The clauses at the end.  There are no tests if the condition is `TRUE`. -/
structure Ending where
  tests : List Test
  ordering : List (String × Direction)
  limit : Option Nat
deriving DecidableEq

/-- A statement as its text says it.  A selection of no columns is one of all columns. -/
inductive Sentence
  | select (columns : List String) (table : String) (link : Option Link) (ending : Ending)
    (offset : Option Nat)
  | insert (table : String) (columns : List String) (entries : List Entry)
  | update (table : String) (assignments : List (String × Entry)) (ending : Ending)
  | delete (table : String) (ending : Ending)
deriving DecidableEq

/-! ### Readers -/

/-- Reads something off the front of a row of lexemes. -/
abbrev Reader := StateT (List Lexeme) Option

namespace Reader

variable {α β : Type}

/-- Reads one lexeme that stands for something. -/
def one (f : Lexeme → Option α) : Reader α
  | [] => none
  | l :: rest => (f l).map fun a => (a, rest)

/-- Reads one certain lexeme. -/
def expect (l : Lexeme) : Reader Unit := one fun l' => if l' = l then some () else none

/-- Reads what a keyword announces, if the keyword is there. -/
def announced (key : Lexeme) (r : Reader α) : Reader (Option α)
  | [] => some (none, [])
  | l :: rest =>
    if l = key then (r rest).map fun (a, rest) => (some a, rest) else some (none, l :: rest)

/-- Reads items, at least one, with a separator between each two of them. -/
def series (separator : Lexeme) (item : Reader α) (ls : List Lexeme) :
    Option (List α × List Lexeme) :=
  match item ls with
  | none => none
  | some (a, []) => some ([a], [])
  | some (a, l :: rest) =>
    if l = separator ∧ rest.length < ls.length then
      (series separator item rest).map fun (as, rest) => (a :: as, rest)
    else some ([a], l :: rest)
termination_by ls.length

end Reader

namespace Reader

/-! ### The grammar -/

/-- A quoted name, without its marks. -/
def name : Reader String := one fun
  | .name s => some s
  | _ => none

/-- The sign of a comparison. -/
def operator : Reader Operator := one fun
  | .sign s => Operator.ofSign? s
  | _ => none

/-- The literal of a value, as it is written. -/
def literal : Reader String := one Lexeme.literal?

/-- The direction after a column of the order. -/
def direction : Reader Direction := one fun
  | .word "ASC" => some .ascending
  | .word "DESC" => some .descending
  | _ => none

/-- A number of rows: no sign and no places. -/
def count : Reader Nat := one fun
  | .number false ⟨n, 0⟩ => some n
  | _ => none

/-- A null test if `IS` follows the column, and else a comparison. -/
def test : Reader Test := do
  let field ← name
  match ← announced (.word "IS") (announced (.word "NOT") (pure ())) with
  | some negation =>
    expect (.word "NULL")
    return if negation.isSome then .present field else .absent field
  | none =>
    let op ← operator
    return .compare field op (← literal)

/-- An entry is the call of the server's time, which is `clock`, or else a literal. -/
def entry (clock : List Lexeme) : Reader Entry := fun ls =>
  match clock.isPrefixOf? ls with
  | some rest => some (.clock, rest)
  | none => (literal ls).map fun (text, rest) => (.literal text, rest)

/-- A column with its table, as a pair of the table and the column. -/
def qualified : Reader (String × String) := do
  let table ← name
  expect (.sign ".")
  return (table, ← name)

/-- The equation of two columns. -/
def equation : Reader ((String × String) × (String × String)) := do
  let left ← qualified
  expect (.sign "=")
  return (left, ← qualified)

/-- What follows the word `INNER`. -/
def link : Reader Link := do
  expect (.word "JOIN")
  let table ← name
  expect (.word "ON")
  return ⟨table, ← series (.word "AND") equation⟩

/-- The condition on rows; `TRUE` stands for no tests. -/
def filter : Reader (List Test) := do
  expect (.word "WHERE")
  match ← announced (.word "TRUE") (pure ()) with
  | some () => return []
  | none => series (.word "AND") test

/-- A column of the order with its direction. -/
def orderingEntry : Reader (String × Direction) := do
  let field ← name
  return (field, ← direction)

/-- What follows the word `ORDER`. -/
def orderingEntries : Reader (List (String × Direction)) := do
  expect (.word "BY")
  series (.sign ",") orderingEntry

/-- The order, which is empty if it is not there. -/
def ordering : Reader (List (String × Direction)) := do
  return (← announced (.word "ORDER") orderingEntries).getD []

/-- The clauses at the end: a condition, and possibly an order and a limit. -/
def ending : Reader Ending := do
  let tests ← filter
  let ordering ← ordering
  return ⟨tests, ordering, ← announced (.word "LIMIT") count⟩

/-- The selected columns; a star stands for no names. -/
def columns : Reader (List String) := do
  match ← announced (.sign "*") (pure ()) with
  | some () => return []
  | none => series (.sign ",") name

/-- A series between parentheses. -/
def parenthesized (item : Reader α) : Reader (List α) := do
  expect (.sign "(")
  let items ← series (.sign ",") item
  expect (.sign ")")
  return items

/-- What is assigned to a column. -/
def assignment (clock : List Lexeme) : Reader (String × Entry) := do
  let field ← name
  expect (.sign "=")
  return (field, ← entry clock)

/-- What follows the word `SELECT`. -/
def select : Reader Sentence := do
  let columns ← columns
  expect (.word "FROM")
  let table ← name
  let link ← announced (.word "INNER") link
  let ending ← ending
  return .select columns table link ending (← announced (.word "OFFSET") count)

/-- What follows the word `INSERT`. -/
def insert (clock : List Lexeme) : Reader Sentence := do
  expect (.word "INTO")
  let table ← name
  let columns ← parenthesized name
  expect (.word "VALUES")
  return .insert table columns (← parenthesized (entry clock))

/-- What follows the word `UPDATE`. -/
def update (clock : List Lexeme) : Reader Sentence := do
  let table ← name
  expect (.word "SET")
  let assignments ← series (.sign ",") (assignment clock)
  return .update table assignments (← ending)

/-- What follows the word `DELETE`. -/
def delete : Reader Sentence := do
  expect (.word "FROM")
  let table ← name
  return .delete table (← ending)

/-- A statement, told by its first word. -/
def sentence (clock : List Lexeme) : Reader Sentence
  | .word "SELECT" :: rest => select rest
  | .word "INSERT" :: rest => insert clock rest
  | .word "UPDATE" :: rest => update clock rest
  | .word "DELETE" :: rest => delete rest
  | _ => none

/-! ### Reading a row of lexemes -/

/-- No lexeme of `stops` begins the row. -/
def Apart (stops rest : List Lexeme) : Prop := ∀ l ∈ rest.head?, l ∉ stops

/-- The reader takes `ls` off the front and gives `a`, unless a lexeme of `stops` follows, with
which it would go on. -/
def Reads (r : Reader α) (ls : List Lexeme) (a : α) (stops : List Lexeme) : Prop :=
  ∀ rest, Apart stops rest → r (ls ++ rest) = some (a, rest)

variable {r : Reader α} {ls ls' rest stops stops' : List Lexeme} {a : α} {b : β}
variable {key separator l : Lexeme}

theorem apart_nil_left : Apart [] rest := fun _ _ => List.not_mem_nil

theorem apart_nil_right : Apart stops [] := by
  rintro _ ⟨⟩

theorem apart_cons (h : l ∉ stops) : Apart stops (l :: rest) := by
  rintro _ ⟨⟩
  exact h

theorem Apart.mono (h : Apart stops' rest) (hsub : stops ⊆ stops') : Apart stops rest :=
  fun l hl hmem => h l hl (hsub hmem)

/-- An optional clause stands between a reader and what it must not meet. -/
theorem Apart.announced (h : Apart stops rest) (hkey : key ∉ stops) (x : Option β)
    (write : β → List Lexeme) : Apart stops ((x.map fun b => key :: write b).getD [] ++ rest) := by
  cases x with
  | none => exact h
  | some b => exact apart_cons hkey

/-- A series begins as its first item does, here with a name. -/
theorem apart_series {ι : Type} {write : ι → List Lexeme} {is : List ι} (hne : is ≠ [])
    (h : ∀ i ∈ is, ∃ s ls, write i = .name s :: ls) (hstops : ∀ s, .name s ∉ stops) :
    Apart stops (List.intercalate [separator] (is.map write) ++ rest) := by
  cases is with
  | nil => exact absurd rfl hne
  | cons i is =>
    obtain ⟨s, ls, hwrite⟩ := h i List.mem_cons_self
    cases is with
    | nil =>
      rw [List.map_singleton, List.intercalate_singleton, hwrite]
      exact apart_cons (hstops s)
    | cons j is =>
      rw [List.map_cons, List.map_cons, List.intercalate_cons_cons, hwrite]
      exact apart_cons (hstops s)

theorem reads_pure (a : α) : Reads (pure a) [] a [] := fun _ _ => rfl

theorem reads_one {f : Lexeme → Option α} (h : f l = some a) : Reads (one f) [l] a [] := by
  intro rest _
  show (f l).map (fun a => (a, rest)) = _
  rw [h, Option.map_some]

theorem reads_expect (l : Lexeme) : Reads (expect l) [l] () [] := reads_one (if_pos rfl)

theorem Reads.mono (h : Reads r ls a stops) (hsub : stops ⊆ stops') : Reads r ls a stops' :=
  fun rest hrest => h rest (hrest.mono hsub)

/-- **One reader after another.**  What the second one reads must not carry the first one on. -/
theorem Reads.bind {k : α → Reader β} (h : Reads r ls a stops) (hk : Reads (k a) ls' b stops')
    (hnext : ∀ rest, Apart stops' rest → Apart stops (ls' ++ rest)) :
    Reads (r >>= k) (ls ++ ls') b stops' := by
  intro rest hrest
  show (r (ls ++ ls' ++ rest)).bind (fun p => k p.1 p.2) = _
  rw [List.append_assoc, h _ (hnext rest hrest)]
  exact hk rest hrest

theorem Reads.then {k : α → Reader β} (h : Reads r ls a []) (hk : Reads (k a) ls' b stops) :
    Reads (r >>= k) (ls ++ ls') b stops :=
  h.bind hk fun _ _ => apart_nil_left

theorem Reads.map (h : Reads r ls a stops) (f : α → β) :
    Reads (do let a ← r; return f a) ls (f a) stops := by
  intro rest hrest
  show (r (ls ++ rest)).bind (fun p => some (f p.1, p.2)) = _
  rw [h rest hrest]
  rfl

theorem Reads.announced (h : Reads r ls a stops) :
    Reads (announced key r) (key :: ls) (some a) stops := by
  intro rest hrest
  show (if key = key then (r (ls ++ rest)).map _ else _) = _
  rw [if_pos rfl, h rest hrest, Option.map_some]

theorem reads_not_announced : Reads (announced key r) [] none [key] := by
  intro rest hrest
  cases rest with
  | nil => rfl
  | cons l rest =>
    have hl : l ≠ key := by simpa using hrest l rfl
    exact if_neg hl

/-- **An optional clause** is read as it is there or not. -/
theorem reads_announced {ι : Type} {write : ι → List Lexeme} {read : ι → α} {x : Option ι}
    (h : ∀ i ∈ x, Reads r (write i) (read i) stops) :
    Reads (announced key r) ((x.map fun i => key :: write i).getD []) (x.map read)
      (key :: stops) := by
  cases x with
  | none => exact reads_not_announced.mono (by simp)
  | some i => exact (h i rfl).announced.mono (List.subset_cons_self key stops)

/-- **A series** is read item by item, and ends where no separator follows. -/
theorem reads_series {ι : Type} {item : Reader α} {write : ι → List Lexeme} {read : ι → α}
    (separator : Lexeme) (is : List ι) (h : ∀ i ∈ is, Reads item (write i) (read i) [])
    (hne : is ≠ []) :
    Reads (series separator item) (List.intercalate [separator] (is.map write)) (is.map read)
      [separator] := by
  induction is with
  | nil => exact absurd rfl hne
  | cons i is ih =>
    obtain ⟨hi, his⟩ := List.forall_mem_cons.1 h
    intro rest hrest
    cases is with
    | nil =>
      rw [List.map_singleton, List.intercalate_singleton, series, hi rest apart_nil_left]
      cases rest with
      | nil => rfl
      | cons l rest =>
        have hl : l ≠ separator := by simpa using hrest l rfl
        exact if_neg fun hs => hl hs.1
    | cons j is =>
      have htail := ih his (List.cons_ne_nil j is) rest hrest
      rw [List.map_cons, List.map_cons, List.intercalate_cons_cons, ← List.map_cons,
        List.append_assoc, List.append_assoc, List.singleton_append, series,
        hi _ apart_nil_left]
      simp only [true_and]
      rw [if_pos (by simp [List.length_append]; omega), htail]
      rfl

theorem reads_parenthesized {ι : Type} {item : Reader α} {write : ι → List Lexeme} {read : ι → α}
    (is : List ι) (h : ∀ i ∈ is, Reads item (write i) (read i) []) (hne : is ≠ []) :
    Reads (parenthesized item)
      ([.sign "("] ++ (List.intercalate [.sign ","] (is.map write) ++ [.sign ")"]))
      (is.map read) [] :=
  (reads_expect (.sign "(")).then <|
    (reads_series _ is h hne).bind ((reads_expect (.sign ")")).map _) fun _ _ =>
      apart_cons (by decide)

end Reader

/-- **Reads the text of a statement.** -/
def Sentence.read? (d : Dialect) (text : String) : Option Sentence := do
  let (s, rest) ← Reader.sentence d.clock (← lex d text.toList)
  if rest = [] then some s else none

end Keyset
