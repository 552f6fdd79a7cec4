import Keyset.Json.Request
import Keyset.Proofs.Json.Query

/-!
# Page and join requests are read part by part

What a request for a page or a join may look like in JSON, what it then asks for, and which fault it
has otherwise.  The parts are looked at in a fixed order, and the fault is that of the first part
that has one.

* `Json.reads_cursor` : a text is always a cursor, by its own right or as a key.
* `Json.reads_page_object`, `Json.reads_join_object` : the requests.
-/

namespace Keyset

namespace Json

/-! ### Cursors -/

/-- The cursor that a value stands for: the one that a text spells, or else the one at the value. -/
inductive Marks : Json → Cursor → Prop
  | spelled {s : String} {c : Cursor} (read : Cursor.ofText s = .ok c) : Marks (text s) c
  | plain {s : String} (unread : ∀ c, Cursor.ofText s ≠ .ok c) : Marks (text s) (.ofKey (.text s))
  | key {j : Json} {v : Value} (noText : ∀ s, j ≠ text s) (value : Stands j v) :
    Marks j (.ofKey v)

theorem reads_cursor_text (field s : String) :
    Reads (Cursor.ofJson field (text s)) True (Marks (text s)) fun _ => False := by
  rw [Cursor.ofJson]
  cases h : Cursor.ofText s with
  | ok c =>
    refine (Reads.ok c).congr Iff.rfl (fun c' => ⟨?_, ?_⟩) fun _ => Iff.rfl
    · rintro rfl
      exact .spelled h
    · rintro (hread | hunread | hnoText)
      · rw [h] at hread
        exact (Except.ok.inj hread).symm
      · exact absurd h (hunread c)
      · exact absurd rfl (hnoText s)
  | error e =>
    refine (Reads.ok _).congr Iff.rfl (fun c' => ⟨?_, ?_⟩) fun _ => Iff.rfl
    · rintro rfl
      refine .plain fun c hc => ?_
      rw [h] at hc
      cases hc
    · rintro (hread | - | hnoText)
      · rw [h] at hread
        cases hread
      · rfl
      · exact absurd rfl (hnoText s)

theorem reads_cursor (field : String) (j : Json) :
    Reads (Cursor.ofJson field j) j.IsScalar (Marks j)
      fun e => ¬ j.IsScalar ∧ e = .misfit (.notLiteral field) := by
  by_cases htext : ∃ s, j = text s
  · obtain ⟨s, rfl⟩ := htext
    exact (reads_cursor_text field s).congr Iff.rfl (fun _ => Iff.rfl) fun e =>
      iff_of_false id fun h => h.1 trivial
  · have hnoText : ∀ s, j ≠ text s := not_exists.1 htext
    have hread : Cursor.ofJson field j = (j.asValue field).map .ofKey := by
      cases j with
      | text s => exact absurd rfl (hnoText s)
      | _ => rfl
    rw [hread]
    refine ((reads_asValue field j).map Cursor.ofKey).congr Iff.rfl (fun c => ⟨?_, ?_⟩)
      fun _ => Iff.rfl
    · rintro ⟨v, hv, rfl⟩
      exact .key hnoText hv
    · rintro (- | - | ⟨-, hv⟩)
      · exact absurd rfl (hnoText _)
      · exact absurd rfl (hnoText _)
      · exact ⟨_, hv, rfl⟩

/-- The cursor under one of two names, where one that is null counts as absent. -/
def cursor? (name other : String) (members : List (String × Json)) : Option Json :=
  (either? name other members).filter fun j => !j.isNull

/-- A cursor that is there. -/
def MarksSome (j : Json) (given : Option Cursor) : Prop := ∃ c, Marks j c ∧ given = some c

theorem ofMember_either? (field name other : String) (members : List (String × Json)) :
    Cursor.ofMember field (either? name other members) =
      readOr (cursor? name other members) none fun j => (Cursor.ofJson field j).map some := by
  unfold cursor?
  cases either? name other members with
  | none => rfl
  | some j => cases j <;> rfl

theorem reads_cursor? (field name other : String) (members : List (String × Json)) :
    Reads (Cursor.ofMember field (either? name other members))
      (∀ j ∈ cursor? name other members, j.IsScalar)
      (Given MarksSome none (cursor? name other members))
      fun e => ∃ j ∈ cursor? name other members,
        ¬ j.IsScalar ∧ e = .misfit (.notLiteral field) := by
  rw [ofMember_either?]
  exact Reads.readOr (fun j => (reads_cursor field j).map some) none _

/-! ### Requests for pages -/

/-- A text, which is there. -/
def Names (j : Json) (name : Option String) : Prop := ∃ s, j = text s ∧ name = some s

/-- The parts of a request for a page, in the order in which they are looked at.  The flag for the
direction has no wrong shape. -/
def pageParts : List Part :=
  [⟨cursor? "sinceId" "since_id", IsScalar,
      fun j e => ¬ j.IsScalar ∧ e = .misfit (.notLiteral "sinceId")⟩,
    ⟨cursor? "maxId" "max_id", IsScalar,
      fun j e => ¬ j.IsScalar ∧ e = .misfit (.notLiteral "maxId")⟩,
    ⟨List.lookup "limit", IsCount, fun j e => ¬ j.IsCount ∧ e = .misfit (.notCount "limit")⟩,
    ⟨either? "where" "predicate", IsFilter, FilterFault⟩,
    ⟨either? "columns" "projection", IsObject,
      fun j e => ¬ j.IsObject ∧ e = .misfit (.notObject "columns")⟩,
    ⟨either? "keyField" "key_field", IsText,
      fun j e => ¬ j.IsText ∧ e = .misfit (.notText "keyField")⟩]

/-- The page that the members of an object ask for. -/
structure RequestsPage (members : List (String × Json)) (r : PageRequest) : Prop where
  /-- The resume point. -/
  since : Given MarksSome none (cursor? "sinceId" "since_id" members) r.since
  /-- The end of the walk. -/
  bound : Given MarksSome none (cursor? "maxId" "max_id" members) r.bound
  /-- The number of rows of a page. -/
  limit : Given Counts none (members.lookup "limit") r.limit
  /-- The filter. -/
  filter : Given Filters {} (either? "where" "predicate" members) r.predicate
  /-- The columns with their flags. -/
  columns : Given (Flags id) [] (either? "columns" "projection" members) r.columns
  /-- The column of the key. -/
  key : Given Names none (either? "keyField" "key_field" members) r.key
  /-- The walk goes up the key. -/
  reverse : r.reverse = ((members.lookup "reverse").map isTruthy).getD false

/-- **A request for a page is read part by part**, up to the first fault. -/
theorem reads_page_object (members : List (String × Json)) :
    Reads (PageRequest.ofJson (object members)) (∀ p ∈ pageParts, p.Fits members)
      (RequestsPage members) (FirstFault (Part.Fits members) (Part.Faulty members) pageParts) := by
  have hkey (j : Json) : Reads ((j.asText "keyField").map some) j.IsText (Names j)
      fun e => ¬ j.IsText ∧ e = .misfit (.notText "keyField") :=
    (reads_asText "keyField" j).map some
  have hparts :=
    (reads_cursor? "sinceId" "sinceId" "since_id" members).bind fun since =>
    (reads_cursor? "maxId" "maxId" "max_id" members).bind fun bound =>
    (Reads.readOr (reads_count "limit") none (members.lookup "limit")).bind fun limit =>
    (Reads.readOr reads_filter {} (either? "where" "predicate" members)).bind fun predicate =>
    (Reads.readOr reads_columns [] (either? "columns" "projection" members)).bind fun columns =>
    (Reads.readOr hkey none (either? "keyField" "key_field" members)).bind fun key =>
    Reads.ok ({
      since, bound, limit, predicate, columns, key
      reverse := ((members.lookup "reverse").map isTruthy).getD false } : PageRequest)
  refine hparts.congr ?_ (fun r => ⟨?_, ?_⟩) fun e => ?_
  · simp [pageParts, Part.Fits]
  · rintro ⟨since, hs, bound, hb, limit, hl, predicate, hp, columns, hc, key, hk, rfl⟩
    exact ⟨hs, hb, hl, hp, hc, hk, rfl⟩
  · intro h
    refine ⟨_, h.since, _, h.bound, _, h.limit, _, h.filter, _, h.columns, _, h.key, ?_⟩
    rw [← h.reverse]
  · simp [pageParts, firstFault_cons_iff, not_firstFault_nil, Part.Fits, Part.Faulty]

/-! ### Requests for joins -/

/-- One column pair, or a list of them. -/
inductive IsPairs : Json → Prop
  | single (pair : String) : IsPairs (text pair)
  | list {items : List Json} (texts : ∀ j ∈ items, j.IsText) : IsPairs (array items)

/-- The column pairs that a value stands for. -/
inductive Pairs : Json → List String → Prop
  | single (pair : String) : Pairs (text pair) [pair]
  | list {items : List Json} {pairs : List String}
    (each : List.Forall₂ (fun j pair => j = text pair) items pairs) : Pairs (array items) pairs

/-- The fault of column pairs. -/
inductive PairsFault : Json → Fault → Prop
  | shape {j : Json} (noText : ¬ j.IsText) (noList : ∀ items, j ≠ array items) :
    PairsFault j (.misfit .notPairs)
  | item {items : List Json} {e : Fault}
    (first : FirstFault IsText (fun j e => ¬ j.IsText ∧ e = .misfit (.notText "inner pair"))
      items e) : PairsFault (array items) e

theorem reads_pairs (j : Json) :
    Reads (JoinRequest.pairsOfJson j) j.IsPairs (Pairs j) (PairsFault j) := by
  cases j with
  | text pair =>
    refine (Reads.ok _).congr (iff_of_true trivial (.single pair)) (fun ps => ⟨?_, ?_⟩)
      fun e => iff_of_false id ?_
    · rintro rfl
      exact .single pair
    · rintro ⟨-⟩
      rfl
    · rintro ⟨noText, -⟩
      exact noText ⟨pair, rfl⟩
  | array items =>
    refine (Reads.mapM (reads_asText "inner pair") items).congr ⟨.list, ?_⟩
      (fun ps => ⟨.list, ?_⟩) fun e => ⟨.item, ?_⟩
    · rintro (_ | h)
      exact h
    · rintro (_ | h)
      exact h
    · rintro (⟨-, noList⟩ | h)
      · exact absurd rfl (noList items)
      · exact h
  | _ =>
    refine (Reads.error _).congr (iff_of_false id nofun) (fun ps => iff_of_false id nofun)
      fun e => ⟨?_, ?_⟩
    · rintro rfl
      exact .shape nofun nofun
    · rintro ⟨-, -⟩
      rfl

/-- The parts of a request for a join, in the order in which they are looked at. -/
def joinParts : List Part :=
  [⟨List.lookup "table", IsText, fun j e => ¬ j.IsText ∧ e = .misfit (.notText "table")⟩,
    ⟨List.lookup "inner", IsPairs, PairsFault⟩,
    ⟨List.lookup "options", IsQuery, QueryFault⟩]

/-- The join that the members of an object ask for. -/
structure RequestsJoin (members : List (String × Json)) (r : JoinRequest) : Prop where
  /-- The table to join. -/
  table : Given (fun j s => j = text s) "" (members.lookup "table") r.table
  /-- The column pairs. -/
  pairs : Given Pairs [] (members.lookup "inner") r.pairs
  /-- What is asked of the joined rows. -/
  query : Given (fun j q => ∃ members, j = object members ∧ Requests members q) {}
    (members.lookup "options") r.query

/-- **A request for a join is read part by part**, up to the first fault. -/
theorem reads_join_object (members : List (String × Json)) :
    Reads (JoinRequest.ofJson (object members)) (∀ p ∈ joinParts, p.Fits members)
      (RequestsJoin members) (FirstFault (Part.Fits members) (Part.Faulty members) joinParts) := by
  have hparts :=
    (Reads.readOr (reads_asText "table") "" (members.lookup "table")).bind fun table =>
    (Reads.readOr reads_pairs [] (members.lookup "inner")).bind fun pairs =>
    (Reads.readOr reads_query {} (members.lookup "options")).bind fun query =>
    Reads.ok ({ table, pairs, query } : JoinRequest)
  refine hparts.congr ?_ (fun r => ⟨?_, ?_⟩) fun e => ?_
  · simp [joinParts, Part.Fits, IsQuery]
  · rintro ⟨table, ht, pairs, hp, query, hq, rfl⟩
    exact ⟨ht, hp, hq⟩
  · intro h
    exact ⟨_, h.table, _, h.pairs, _, h.query, rfl⟩
  · simp [joinParts, firstFault_cons_iff, not_firstFault_nil, Part.Fits, Part.Faulty, IsQuery,
      QueryFault]

end Json

end Keyset
