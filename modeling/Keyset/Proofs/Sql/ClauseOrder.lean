import Keyset.Proofs.Sql.Sentences

/-!
# The clauses that dialects accept

A clause begins with a word of its own, so the text of a statement shows its sequence of clauses:
`Fragment.headings` for a fragment, `Lexeme.heading?` for the text.  Which sequences are statements
depends on the dialect.

    SELECT FROM [INNER] [WHERE] [ORDER] counts
    UPDATE SET [WHERE] [ORDER] [LIMIT]
    DELETE FROM [WHERE] [ORDER] [LIMIT]

    counts:  [LIMIT [OFFSET]]

PostgreSQL takes an offset without a limit too, and neither an order nor a limit in a change or a
removal.

* `Fragment.headings_tail` : the clauses at the end of a statement.
* `Statement.accepts_render` : what a dialect makes of a text is settled by the clauses.
* `Statement.accepted_iff` : **which statements their dialect accepts.**
-/

namespace Keyset

open Fragment

/-! ### The clauses of a text -/

/-- The tokens with which a clause begins. -/
def clauseTokens : List Token :=
  [.SELECT, .UPDATE, .DELETE, .FROM, .INNER, .SET, .WHERE, .ORDER, .LIMIT, .OFFSET]

/-- The token of the clause that a lexeme begins. -/
def Lexeme.heading? (l : Lexeme) : Option Token := clauseTokens.find? fun t => t.lexeme = l

namespace Dialect

/-- The clauses without an optional one at their front. -/
def skip (t : Token) : List Token → List Token
  | [] => []
  | u :: rest => if u = t then rest else u :: rest

/-- The dialect takes these clauses for the counts of a selection. -/
def takesCounts (d : Dialect) : List Token → Bool
  | [] | [.LIMIT] | [.LIMIT, .OFFSET] => true
  | [.OFFSET] => d = .postgreSQL
  | _ => false

/-- The dialect takes these clauses at the end of a change or a removal. -/
def takesEnding (d : Dialect) (clauses : List Token) : Bool :=
  let rest := skip .WHERE clauses
  (if d = .postgreSQL then rest else skip .LIMIT (skip .ORDER rest)) = []

/-- The dialect takes these clauses as a statement. -/
def takes (d : Dialect) : List Token → Bool
  | .SELECT :: .FROM :: rest => d.takesCounts (skip .ORDER (skip .WHERE (skip .INNER rest)))
  | .UPDATE :: .SET :: rest => d.takesEnding rest
  | .DELETE :: .FROM :: rest => d.takesEnding rest
  | _ => false

/-- The dialect accepts the clauses of a text. -/
def accepts (d : Dialect) (text : String) : Bool :=
  (lex d text.toList).any fun ls => d.takes (ls.filterMap Lexeme.heading?)

end Dialect

/-! ### The clauses of a fragment -/

/-- The token of the clause that a piece begins. -/
def Piece.heading? : Piece → Option Token
  | token t => if t ∈ clauseTokens then some t else none
  | _ => none

theorem Value.heading?_lexeme (v : Value) : v.lexeme.heading? = none := by
  cases v with
  | null => rfl
  | bool b => cases b <;> rfl
  | integer n => rfl
  | real x => cases x <;> rfl
  | text s => rfl
  | timestamp t => rfl

/-- The lexemes of a piece begin the clause that the piece begins. -/
theorem Piece.filterMap_lexemes (d : Dialect) (c : Piece) :
    (c.lexemes d.clock).filterMap Lexeme.heading? = c.heading?.toList := by
  cases c with
  | token t => cases t <;> rfl
  | ident s => rfl
  | qualified table column => rfl
  | raw text => rfl
  | literal v => rw [lexemes, List.filterMap_cons, v.heading?_lexeme]; rfl
  | count n => rfl
  | now => cases d <;> rfl

namespace Fragment

/-- The clauses of a fragment. -/
def headings (a : Fragment) : List Token := a.pieces.filterMap Piece.heading?

theorem filterMap_lexemes (d : Dialect) (a : Fragment) :
    (a.lexemes d.clock).filterMap Lexeme.heading? = a.headings := by
  obtain ⟨pieces⟩ := a
  induction pieces with
  | nil => rfl
  | cons c pieces ih =>
    have hlexemes : (Fragment.mk (c :: pieces)).lexemes d.clock =
      c.lexemes d.clock ++ (Fragment.mk pieces).lexemes d.clock := rfl
    rw [hlexemes, List.filterMap_append, c.filterMap_lexemes, ih, headings, headings,
      List.filterMap_cons]
    cases c.heading? <;> rfl

@[simp] theorem headings_empty : empty.headings = [] := rfl

@[simp] theorem headings_append (a b : Fragment) :
    (a ++ b).headings = a.headings ++ b.headings := by
  simp only [headings, pieces_append, List.filterMap_append]

@[simp] theorem headings_push (a : Fragment) (c : Piece) :
    (a.push c).headings = a.headings ++ c.heading?.toList := by
  rw [push_eq_append, headings_append]
  cases h : c.heading? <;> simp [single, headings, h]

@[simp] theorem headings_ident (s : String) : (ident s).headings = [] := rfl

theorem headings_join {t : Token} (ht : t ∉ clauseTokens) {as : List Fragment}
    (h : ∀ a ∈ as, a.headings = []) : (join t as).headings = [] := by
  induction as with
  | nil => rfl
  | cons a as ih =>
    obtain ⟨ha, has⟩ := List.forall_mem_cons.1 h
    cases as with
    | nil => exact ha
    | cons b as => simp [join, ih has, ha, Piece.heading?, ht]

/-! ### The clauses of a statement -/

theorem headings_columns (cs : List (String × Bool)) : (Clause.columns cs).headings = [] := by
  have hnames : (join .comma ((Query.included cs).map ident)).headings = [] :=
    headings_join (by decide) (List.forall_mem_map.2 fun s _ => rfl)
  unfold Clause.columns
  simp only [apply_ite headings, hnames]
  exact ite_self []

theorem headings_on (entry : String × Comparison) : (Comparison.on entry).headings = [] := by
  obtain ⟨field, op, v⟩ := entry
  cases op <;> cases v <;> rfl

theorem headings_predicate {p : Predicate} (noRaw : p.raw = none) :
    (Clause.predicate p).headings = [.WHERE] := by
  have htests : (join .AND (p.comparisons.map Comparison.on)).headings = [] :=
    headings_join (by decide) (List.forall_mem_map.2 fun entry _ => headings_on entry)
  rw [Clause.predicate_eq, noRaw]
  cases h : p.comparisons with
  | nil => rfl
  | cons c cs =>
    rw [h] at htests
    simp only [headings_append, htests]
    rfl

/-- The token of a clause that is there or not. -/
def clause (given : Bool) (t : Token) : List Token := if given then [t] else []

theorem headings_ordering (entries : List (String × Direction)) :
    ((Clause.ordering? entries).getD empty).headings = clause (!entries.isEmpty) .ORDER := by
  cases entries with
  | nil => rfl
  | cons e es =>
    have hentry (e : String × Direction) :
        ((ident e.1).push (.token e.2.token)).headings = [] := by
      cases e.2 <;> rfl
    have hentries : (join .comma ((e :: es).map fun e =>
        (ident e.1).push (.token e.2.token))).headings = [] :=
      headings_join (by decide) (List.forall_mem_map.2 fun e _ => hentry e)
    rw [Clause.ordering?, List.isEmpty_cons]
    simp only [Bool.false_eq_true, if_false, Option.getD_some, headings_append, hentries]
    rfl

theorem headings_getD {α : Type} {t : Token} {write : α → Fragment}
    (h : ∀ a, (write a).headings = [t]) (x : Option α) :
    ((x.map write).getD empty).headings = clause x.isSome t := by
  cases x with
  | none => rfl
  | some a => exact h a

/-- **The clauses at the end of a statement.** -/
theorem headings_tail {q : Query} (noRaw : q.predicate.raw = none) (withOffset : Bool) :
    (Statement.tail q withOffset).headings = .WHERE :: (clause (!q.ordering.isEmpty) .ORDER ++
      (clause q.limit.isSome .LIMIT ++ clause (withOffset && q.offset.isSome) .OFFSET)) := by
  have hoffset : (if withOffset then (q.offset.map Clause.offset).getD empty else empty).headings =
      clause (withOffset && q.offset.isSome) .OFFSET := by
    cases withOffset with
    | false => rfl
    | true => exact headings_getD (fun _ => rfl) q.offset
  rw [Statement.tail_eq, headings_append, headings_append, headings_append,
    headings_predicate noRaw, headings_ordering, headings_getD fun _ => rfl, hoffset]
  simp only [List.append_assoc, List.cons_append, List.nil_append]

theorem headings_joinFragment (source : String) (j : Join) :
    (j.fragment source).headings = [.INNER] := by
  have hequations :
      (conjunction (j.pairs.map (Join.equation source j.target))).headings = [] := by
    refine headings_join (by decide) fun a ha => ?_
    obtain ⟨pair, -, rfl⟩ := List.mem_map.1 (List.mem_filter.1 ha).1
    rfl
  rw [Join.fragment, headings_append, hequations]
  rfl

theorem headings_select (table : String) (q : Query) (j : Option Join) :
    (Statement.select table q j).fragment.headings =
      .SELECT :: .FROM :: (clause j.isSome .INNER ++ (Statement.tail q true).headings) := by
  rw [Statement.fragment, headings_append, headings_append, headings_append, headings_append,
    headings_columns, headings_getD (headings_joinFragment table)]
  simp only [List.append_assoc]
  rfl

theorem headings_update (table : String) (record : Record) (stamps : Stamps) (q : Query) :
    (Statement.update table record stamps q).fragment.headings =
      .UPDATE :: .SET :: (Statement.tail q false).headings := by
  have hassignments : (join .comma (record.map (fun f => (ident f.1).compare .eq f.2) ++
      [((ident stamps.updated).push (.token .eq)).push .now])).headings = [] := by
    refine headings_join (by decide) ?_
    rw [List.forall_mem_append, List.forall_mem_map]
    exact ⟨fun f _ => rfl, List.forall_mem_singleton.2 rfl⟩
  rw [Statement.fragment, Clause.assignment, headings_append, headings_append, headings_append,
    headings_append, hassignments]
  rfl

theorem headings_delete (table : String) (q : Query) :
    (Statement.delete table q).fragment.headings =
      .DELETE :: .FROM :: (Statement.tail q false).headings := by
  rw [Statement.fragment, headings_append, headings_append]
  rfl

end Fragment

/-! ### Statements that dialects accept -/

namespace Dialect

theorem takes_select (d : Dialect) (joined ordered limited skipped : Bool) :
    d.takes (.SELECT :: .FROM :: (clause joined .INNER ++ .WHERE :: (clause ordered .ORDER ++
      (clause limited .LIMIT ++ clause skipped .OFFSET)))) =
        (d = .postgreSQL || !skipped || limited) := by
  cases d <;> revert joined ordered limited skipped <;> decide

theorem takes_ending (d : Dialect) (ordered limited : Bool) :
    d.takesEnding (.WHERE :: (clause ordered .ORDER ++ (clause limited .LIMIT ++ []))) =
      (d ≠ .postgreSQL || !ordered && !limited) := by
  cases d <;> revert ordered limited <;> decide

end Dialect

namespace Statement

/-- Whether a dialect accepts a text without raw text is settled by the clauses. -/
theorem accepts_render {s : Statement} (h : s.fragment.plain = true) (d : Dialect) :
    d.accepts (s.render d) = d.takes s.fragment.headings := by
  rw [Dialect.accepts, render, lexemes_of_render h, Option.any_some, filterMap_lexemes]

/-- **Which statements their dialect accepts**: a selection, joined or not, iff it has a limit with
its offset or is for PostgreSQL, and a change or a removal iff it is for another dialect or has
neither an order nor a limit. -/
theorem accepted_iff (d : Dialect) (table : String) {q : Query} (noRaw : q.predicate.raw = none) :
    (∀ j : Option Join, d.accepts ((select table q j).render d) = true ↔
      d = .postgreSQL ∨ q.offset = none ∨ q.limit ≠ none) ∧
    (∀ record stamps, d.accepts ((update table record stamps q).render d) = true ↔
      d ≠ .postgreSQL ∨ q.ordering = [] ∧ q.limit = none) ∧
    (d.accepts ((delete table q).render d) = true ↔
      d ≠ .postgreSQL ∨ q.ordering = [] ∧ q.limit = none) := by
  have hending : d.takesEnding (tail q false).headings = true ↔
      d ≠ .postgreSQL ∨ q.ordering = [] ∧ q.limit = none := by
    have hoffset : clause (false && q.offset.isSome) .OFFSET = [] := rfl
    rw [headings_tail noRaw, hoffset, Dialect.takes_ending]
    simp
  refine ⟨fun j => ?_, fun record stamps => ?_, ?_⟩
  · rw [accepts_render (plain_select table noRaw j), headings_select, headings_tail noRaw,
      Bool.true_and, Dialect.takes_select]
    simp [or_assoc, Option.isSome_iff_ne_none]
  · rw [accepts_render (plain_update table record stamps noRaw), headings_update]
    exact hending
  · rw [accepts_render (plain_delete table noRaw), headings_delete]
    exact hending

/-- An offset on its own for PostgreSQL, in a join on a name that looks like a clause, and a removal
with an order and a limit for MySQL. -/
theorem accepted_iff_on_its_own :
    Dialect.postgreSQL.accepts ((select "posts" { offset := some 5 }
        (some ⟨"\x22 LIMIT", [("a", "b")]⟩)).render .postgreSQL) = true ∧
      Dialect.mysql.accepts ((delete "posts"
        { ordering := [("id", .ascending)], limit := some 3 }).render .mysql) = true := by
  obtain ⟨hselect, -⟩ := accepted_iff .postgreSQL "posts" (q := { offset := some 5 }) rfl
  obtain ⟨-, -, hdelete⟩ := accepted_iff .mysql "posts"
    (q := { ordering := [("id", .ascending)], limit := some 3 }) rfl
  exact ⟨(hselect _).2 (.inl rfl), hdelete.2 (.inl nofun)⟩

/-- An offset on its own is refused by SQLite, and a removal with a limit by PostgreSQL. -/
theorem refused_on_its_own :
    Dialect.sqlite.accepts
        ((select "posts" { offset := some 5 } none).render .sqlite) = false ∧
      Dialect.postgreSQL.accepts
        ((delete "posts" { limit := some 3 }).render .postgreSQL) = false := by
  rw [accepts_render (plain_select "posts" rfl none), accepts_render (plain_delete "posts" rfl)]
  exact ⟨rfl, rfl⟩

end Statement

end Keyset
