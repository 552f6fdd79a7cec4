import Keyset.Proofs.Sql.Conditions
import Keyset.Proofs.Sql.Grammar
import Keyset.Query.Statement

/-!
# Statements are read as what they were made of

The text of a statement without raw text is read by the grammar of statements into the names,
literals and counts that the statement was made of, each in its place, whatever characters the names
and texts hold.

* `Reader.reads_test`, `Reader.reads_entry`, `Reader.reads_ending` : the parts.
* `Sentence.read?_select` : **selections**; two of them with one text were made of the same parts.
* `Sentence.read?_write` : **insertions, changes and removals**, which show nothing of the columns
  and the offset of their query.
-/

namespace Keyset

open Decimal Fragment Lexeme

/-! ### What queries say -/

/-- What a comparison of a column says. -/
def Comparison.test (entry : String × Comparison) : Test :=
  match entry.2.operator, entry.2.operand with
  | .eq, .null => .absent entry.1
  | .ne, .null => .present entry.1
  | op, v => .compare entry.1 op v.literal

/-- What the clauses at the end say, but for the offset. -/
def Query.ending (q : Query) : Ending where
  tests := q.predicate.comparisons.map Comparison.test
  ordering := q.ordering
  limit := q.limit.map fun n => min n.toNat Piece.maxCount

/-- What a join of a table says. -/
def Join.link (source : String) (j : Join) : Link where
  table := j.target
  equations := j.pairs.map fun (left, right) => ((source, left), (j.target, right))

namespace Reader

variable {d : Dialect} {clock : List Lexeme}

/-! ### Reading the parts -/

theorem reads_name (s : String) : Reads name [.name s] s [] := reads_one rfl

theorem reads_literal (v : Value) : Reads literal [v.lexeme] v.literal [] :=
  reads_one v.literal?_lexeme

theorem reads_operator (op : Operator) : Reads operator [op.token.lexeme] op [] :=
  reads_one (by cases op <;> rfl)

theorem reads_direction (d : Direction) : Reads direction [d.token.lexeme] d [] :=
  reads_one (by cases d <;> rfl)

theorem reads_compare (field : String) (op : Operator) (v : Value) :
    Reads test [.name field, op.token.lexeme, v.lexeme] (.compare field op v.literal) [] := by
  have hsign (rest : List Lexeme) : Apart [.word "IS"] (op.token.lexeme :: rest) :=
    apart_cons (by cases op <;> decide)
  have hoperand : Reads (do let op ← operator; return Test.compare field op (← literal))
      ([op.token.lexeme] ++ [v.lexeme]) (.compare field op v.literal) [] :=
    (reads_operator op).then ((reads_literal v).map _)
  exact (reads_name field).then (reads_not_announced.bind hoperand fun rest _ => hsign _)

/-- **A comparison is read as the test that it is.** -/
theorem reads_test (clock : List Lexeme) (entry : String × Comparison) :
    Reads test ((Comparison.on entry).lexemes clock) (Comparison.test entry) [] := by
  obtain ⟨field, op, v⟩ := entry
  have hnull : Reads test [.name field, .word "IS", .word "NULL"] (.absent field) [] :=
    fun _ _ => rfl
  have hnotNull : Reads test [.name field, .word "IS", .word "NOT", .word "NULL"]
      (.present field) [] := fun _ _ => rfl
  cases op with
  | eq =>
    cases v with
    | null => exact hnull
    | bool | integer | real | text | timestamp => exact reads_compare field .eq _
  | ne =>
    cases v with
    | null => exact hnotNull
    | bool | integer | real | text | timestamp => exact reads_compare field .ne _
  | lt | gt | le | ge => exact reads_compare field _ v

theorem reads_entry (x : Option Value) :
    Reads (entry d.clock) ((x.elim Piece.now .literal).lexemes d.clock)
      (x.elim .clock fun v => .literal v.literal) [] := by
  cases x with
  | none =>
    intro rest _
    cases d <;> rfl
  | some v =>
    -- no literal begins as the call of the server's time does
    have hlexeme : v.lexeme ≠ .word "CURRENT_TIMESTAMP" := by
      intro h
      have hliteral := v.literal?_lexeme
      rw [h] at hliteral
      cases hliteral
    intro rest hrest
    have hclock : d.clock.isPrefixOf? (v.lexeme :: rest) = none := by
      cases d <;> simp [Dialect.clock, List.isPrefixOf?, Ne.symm hlexeme]
    show entry d.clock (v.lexeme :: rest) = _
    rw [entry, hclock]
    simp only
    rw [← List.singleton_append, reads_literal v rest hrest]
    rfl

theorem reads_equation (left right : String × String) :
    Reads equation [.name left.1, .sign ".", .name left.2, .sign "=", .name right.1, .sign ".",
      .name right.2] (left, right) [] := fun _ _ => rfl

theorem reads_link (source : String) {j : Join} (hne : j.pairs ≠ []) :
    Reads link ([.word "JOIN"] ++ ([.name j.target] ++ ([.word "ON"] ++
      List.intercalate [.word "AND"] (j.pairs.map fun pair =>
        (Join.equation source j.target pair).lexemes clock)))) (j.link source) [.word "AND"] :=
  (reads_expect _).then <| (reads_name _).then <| (reads_expect _).then <|
    (reads_series _ _ (fun pair _ => reads_equation (source, pair.1) (j.target, pair.2)) hne).map _

theorem reads_count (clock : List Lexeme) (n : UInt64) :
    Reads count ((Piece.count n).lexemes clock) (min n.toNat Piece.maxCount) [] :=
  reads_one rfl

/-! ### Reading the clauses -/

/-- **The filter of rows is read as the tests that it makes.** -/
theorem reads_filter {p : Predicate} (noRaw : p.raw = none) :
    Reads filter ((Clause.predicate p).lexemes clock) (p.comparisons.map Comparison.test)
      [.word "AND"] := by
  rw [Clause.predicate_eq, noRaw, lexemes_append]
  refine (reads_expect _).then ?_
  cases p.comparisons with
  | nil => exact ((reads_pure ()).announced.then (reads_pure [])).mono (by simp)
  | cons c cs =>
    have hseries := reads_series (.word "AND") (c :: cs)
      (fun c _ => reads_test clock c) (List.cons_ne_nil c cs)
    have hname : ∀ e ∈ c :: cs, ∃ s ls, (Comparison.on e).lexemes clock = .name s :: ls := by
      rintro ⟨field, op, v⟩ -
      cases op <;> cases v <;> exact ⟨_, _, rfl⟩
    simp only [lexemes_join, List.map_map]
    exact reads_not_announced.bind hseries fun rest _ => apart_series (by simp) hname (by simp)

theorem reads_ordering (entries : List (String × Direction)) :
    Reads ordering (((Clause.ordering? entries).getD empty).lexemes clock) entries
      [.word "ORDER", .sign ","] := by
  cases entries with
  | nil => exact (reads_not_announced.map fun o => o.getD []).mono (by simp)
  | cons e es =>
    have hentry (e : String × Direction) :
        Reads orderingEntry [.name e.1, e.2.token.lexeme] e [] :=
      (reads_name _).then ((reads_direction _).map _)
    have hseries := reads_series (.sign ",") (e :: es) (fun e _ => hentry e)
      (List.cons_ne_nil e es)
    rw [Clause.ordering?_cons, Option.getD_some, lexemes_append, lexemes_join, List.map_map]
    rw [List.map_id'] at hseries
    have hentries : Reads orderingEntries _ (e :: es) [.sign ","] :=
      (reads_expect (.word "BY")).then hseries
    exact (hentries.announced.map fun o => o.getD []).mono (by simp)

theorem Apart.ordering {stops rest : List Lexeme} (h : Apart stops rest)
    (hkey : .word "ORDER" ∉ stops) (entries : List (String × Direction)) :
    Apart stops (((Clause.ordering? entries).getD empty).lexemes clock ++ rest) := by
  cases entries with
  | nil => exact h
  | cons e es =>
    rw [Clause.ordering?_cons, Option.getD_some, lexemes_append]
    exact apart_cons hkey

/-- **The clauses at the end** are read one after another. -/
theorem reads_ending {q : Query} (noRaw : q.predicate.raw = none) :
    Reads ending ((Statement.tail q false).lexemes clock) q.ending
      [.word "AND", .word "ORDER", .sign ",", .word "LIMIT"] := by
  have hlimit : Reads (announced (.word "LIMIT") count)
      ((q.limit.map fun n => (Clause.limit n).lexemes clock).getD [])
      (q.limit.map fun n => min n.toNat Piece.maxCount) [.word "LIMIT"] :=
    reads_announced fun n _ => reads_count clock n
  have htail : (Statement.tail q false).lexemes clock =
      (Clause.predicate q.predicate).lexemes clock ++
        (((Clause.ordering? q.ordering).getD empty).lexemes clock ++
          (q.limit.map fun n => (Clause.limit n).lexemes clock).getD []) := by
    simp [Statement.tail_eq]
  rw [htail]
  refine (reads_filter noRaw).bind ((reads_ordering q.ordering).bind
    ((hlimit.map _).mono (by decide)) ?_) ?_
  · intro rest h
    exact (h.mono (by decide)).announced (by decide) q.limit _
  · intro rest h
    rw [List.append_assoc]
    exact (((h.mono (by decide)).announced (by decide) q.limit _)).ordering (by decide) q.ordering

theorem reads_columns (cs : List (String × Bool)) :
    Reads columns ((Clause.columns cs).lexemes clock) (Query.included cs) [.sign ","] := by
  have hempty : (join .comma ((Query.included cs).map ident)).isEmpty =
      (Query.included cs).isEmpty := by
    rw [isEmpty_join, List.isEmpty_map]
    intro a ha
    obtain ⟨s, -, rfl⟩ := List.mem_map.1 ha
    rfl
  unfold Clause.columns
  simp only [hempty]
  cases Query.included cs with
  | nil => exact ((reads_pure ()).announced.then (reads_pure [])).mono (by simp)
  | cons s ss =>
    have hseries := reads_series (.sign ",") (s :: ss)
      (fun s _ => reads_name s) (List.cons_ne_nil s ss)
    rw [List.map_id'] at hseries
    simp only [List.isEmpty_cons, Bool.false_eq_true, if_false, lexemes_join, List.map_map]
    exact reads_not_announced.bind hseries fun rest _ =>
      apart_series (by simp) (fun s _ => ⟨s, [], rfl⟩) (by simp)

theorem lexemes_joinFragment (source : String) (j : Join) :
    (j.fragment source).lexemes clock = .word "INNER" :: ([.word "JOIN"] ++ ([.name j.target] ++
      ([.word "ON"] ++ List.intercalate [.word "AND"] (j.pairs.map fun pair =>
        (Join.equation source j.target pair).lexemes clock)))) := by
  have hequations : conjunction (j.pairs.map (Join.equation source j.target)) =
      join .AND (j.pairs.map (Join.equation source j.target)) := by
    refine conjunction_of_forall ?_
    intro a ha
    obtain ⟨pair, -, rfl⟩ := List.mem_map.1 ha
    rfl
  rw [Join.fragment, hequations, lexemes_append, lexemes_join, List.map_map]
  rfl

theorem Apart.tail {stops : List Lexeme} (hkey : .word "WHERE" ∉ stops) (q : Query)
    (rest : List Lexeme) : Apart stops ((Statement.tail q false).lexemes clock ++ rest) := by
  rw [Statement.tail_eq, Clause.predicate_eq]
  simp only [lexemes_append, List.append_assoc]
  exact apart_cons hkey

theorem reads_select (table : String) {q : Query} (noRaw : q.predicate.raw = none)
    {j : Option Join} (paired : ∀ x ∈ j, x.pairs ≠ []) :
    Reads (sentence clock) ((Statement.select table q j).fragment.lexemes clock)
      (.select (Query.included q.columns) table (j.map (Join.link table)) q.ending
        (q.offset.map fun n => min n.toNat Piece.maxCount))
      [.word "AND", .word "ORDER", .sign ",", .word "LIMIT", .word "OFFSET"] := by
  have hoffset : Reads (announced (.word "OFFSET") count)
      ((q.offset.map fun n => (Clause.offset n).lexemes clock).getD [])
      (q.offset.map fun n => min n.toNat Piece.maxCount) [.word "OFFSET"] :=
    reads_announced fun n _ => reads_count clock n
  have hjoin : Reads (announced (.word "INNER") link)
      ((j.map fun x => (x.fragment table).lexemes clock).getD []) (j.map (Join.link table))
      [.word "INNER", .word "AND"] := by
    simp only [lexemes_joinFragment]
    exact reads_announced fun x hx => reads_link table (paired x hx)
  have hlexemes : (Statement.select table q j).fragment.lexemes clock = .word "SELECT" ::
      ((Clause.columns q.columns).lexemes clock ++ ([.word "FROM"] ++ ([.name table] ++
        ((j.map fun x => (x.fragment table).lexemes clock).getD [] ++
          ((Statement.tail q false).lexemes clock ++
            (q.offset.map fun n => (Clause.offset n).lexemes clock).getD []))))) := by
    simp only [Statement.fragment, Statement.source, Statement.tail_eq, if_true, Bool.false_eq_true,
      if_false, lexemes_append, lexemes_push, lexemes_getD, lexemes_token, lexemes_empty,
      List.append_assoc, List.append_nil]
    rfl
  rw [hlexemes]
  suffices h : Reads select _ _ _ from h
  refine (reads_columns q.columns).bind ((reads_expect (.word "FROM")).then ((reads_name table).then
    (hjoin.bind ((reads_ending noRaw).bind ((hoffset.map _).mono (by decide)) ?_) ?_))) ?_
  · intro rest h
    exact (h.mono (by decide)).announced (by decide) q.offset _
  · intro rest _
    rw [List.append_assoc]
    exact Apart.tail (by decide) q _
  · intro rest _
    exact apart_cons (by decide)

/-- **The columns of a new row** are those of the record and then both stamps. -/
theorem reads_insertedColumns (record : Record) (stamps : Stamps) :
    Reads (parenthesized name) ((Clause.insertedColumns record stamps).lexemes clock)
      (record.map (·.1) ++ [stamps.created, stamps.updated]) [] := by
  have h := reads_parenthesized (record.map (·.1) ++ [stamps.created, stamps.updated])
    (fun s _ => reads_name s) (by simp)
  rw [List.map_id'] at h
  rw [Clause.insertedColumns, lexemes_parens, lexemes_join, List.map_map]
  exact h

/-- **The values of a new row** are those of the record and then the server's time, twice. -/
theorem reads_insertedValues (record : Record) :
    Reads (parenthesized (entry d.clock)) ((Clause.insertedValues record).lexemes d.clock)
      (record.map (fun f => .literal f.2.literal) ++ [.clock, .clock]) [] := by
  have hentry (x : Option Value) : Reads (entry d.clock)
      ((single (x.elim Piece.now .literal)).lexemes d.clock)
      (x.elim .clock fun v => .literal v.literal) [] := by
    rw [lexemes_single]
    exact reads_entry x
  have h := reads_parenthesized
    (record.map (fun f : String × Value => some f.2) ++ [none, none])
    (fun x _ => hentry x) (by simp)
  rw [Clause.insertedValues, lexemes_parens, lexemes_join]
  simp only [List.map_append, List.map_map] at h ⊢
  exact h

/-- **The assignments of a change** are those of the record and then the stamp. -/
theorem reads_assignments (record : Record) (stamps : Stamps) :
    Reads (series (.sign ",") (assignment d.clock))
      ((join .comma (record.map (fun f => (ident f.1).compare .eq f.2) ++
        [((ident stamps.updated).push (.token .eq)).push .now])).lexemes d.clock)
      (record.map (fun f => (f.1, .literal f.2.literal)) ++ [(stamps.updated, .clock)])
      [.sign ","] := by
  have hassignment (f : String × Option Value) : Reads (assignment d.clock)
      ((((ident f.1).push (.token .eq)).push (f.2.elim Piece.now .literal)).lexemes d.clock)
      (f.1, f.2.elim .clock fun v => .literal v.literal) [] := by
    rw [lexemes_push, lexemes_push, lexemes_ident, List.append_assoc]
    exact (reads_name f.1).then ((reads_expect (.sign "=")).then ((reads_entry f.2).map _))
  have h := reads_series (.sign ",")
    (record.map (fun f => (f.1, some f.2)) ++ [(stamps.updated, none)])
    (fun f _ => hassignment f) (by simp)
  rw [lexemes_join]
  simp only [List.map_append, List.map_map] at h ⊢
  exact h

theorem reads_insert (table : String) (record : Record) (stamps : Stamps) :
    Reads (sentence d.clock)
      ((Statement.insert table record stamps).fragment.lexemes d.clock)
      (.insert table (record.map (·.1) ++ [stamps.created, stamps.updated])
        (record.map (fun f => .literal f.2.literal) ++ [.clock, .clock])) [] := by
  have hlexemes : (Statement.insert table record stamps).fragment.lexemes d.clock =
      .word "INSERT" :: ([.word "INTO"] ++ ([.name table] ++
        ((Clause.insertedColumns record stamps).lexemes d.clock ++ ([.word "VALUES"] ++
          (Clause.insertedValues record).lexemes d.clock)))) := by
    simp only [Statement.fragment, lexemes_append, lexemes_push, lexemes_tokens, lexemes_ident,
      List.append_assoc]
    rfl
  rw [hlexemes]
  suffices h : Reads (insert d.clock) _ _ _ from h
  exact (reads_expect (.word "INTO")).then <| (reads_name table).then <|
    (reads_insertedColumns record stamps).then <| (reads_expect (.word "VALUES")).then <|
      (reads_insertedValues record).map _

theorem reads_update (table : String) (record : Record) (stamps : Stamps) {q : Query}
    (noRaw : q.predicate.raw = none) :
    Reads (sentence d.clock)
      ((Statement.update table record stamps q).fragment.lexemes d.clock)
      (.update table (record.map (fun f => (f.1, .literal f.2.literal)) ++
        [(stamps.updated, .clock)]) q.ending)
      [.word "AND", .word "ORDER", .sign ",", .word "LIMIT"] := by
  have hlexemes : (Statement.update table record stamps q).fragment.lexemes d.clock =
      .word "UPDATE" :: ([.name table] ++ ([.word "SET"] ++
        ((join .comma (record.map (fun f => (ident f.1).compare .eq f.2) ++
            [((ident stamps.updated).push (.token .eq)).push .now])).lexemes d.clock ++
          (Statement.tail q false).lexemes d.clock))) := by
    simp only [Statement.fragment, Clause.assignment, lexemes_append, lexemes_token,
      lexemes_ident, List.append_assoc]
    rfl
  rw [hlexemes]
  suffices h : Reads (update d.clock) _ _ _ from h
  exact (reads_name table).then <| (reads_expect (.word "SET")).then <|
    (reads_assignments record stamps).bind ((reads_ending noRaw).map _) fun rest _ =>
      Apart.tail (by decide) q rest

theorem reads_delete (table : String) {q : Query} (noRaw : q.predicate.raw = none) :
    Reads (sentence clock) ((Statement.delete table q).fragment.lexemes clock)
      (.delete table q.ending) [.word "AND", .word "ORDER", .sign ",", .word "LIMIT"] := by
  have hlexemes : (Statement.delete table q).fragment.lexemes clock = .word "DELETE" ::
      ([.word "FROM"] ++ ([.name table] ++ (Statement.tail q false).lexemes clock)) := by
    simp only [Statement.fragment, Statement.source, lexemes_append, lexemes_push, lexemes_token,
      List.append_assoc]
    rfl
  rw [hlexemes]
  suffices h : Reads delete _ _ _ from h
  exact (reads_expect (.word "FROM")).then ((reads_name table).then ((reads_ending noRaw).map _))

end Reader

/-! ### Statements without raw text -/

namespace Statement

variable {q : Query}

theorem plain_tail (noRaw : q.predicate.raw = none) (withOffset : Bool) :
    (tail q withOffset).plain = true := by
  have hon (entry : String × Comparison) : (Comparison.on entry).plain = true := by
    obtain ⟨field, op, v⟩ := entry
    cases op <;> cases v <;> rfl
  have hpredicate : (Clause.predicate q.predicate).plain = true := by
    rw [Clause.predicate_eq, noRaw]
    cases q.predicate.comparisons with
    | nil => rfl
    | cons c cs => simp [token, Piece.isRaw, hon]
  have hordering : ((Clause.ordering? q.ordering).getD empty).plain = true := by
    cases q.ordering with
    | nil => rfl
    | cons e es => simp [Clause.ordering?, ident, Piece.isRaw]
  have hempty : empty.plain = true := rfl
  cases withOffset <;>
    simp [tail_eq, hpredicate, hordering, hempty, Clause.limit, Clause.offset, token, Piece.isRaw]

theorem plain_select (table : String) (noRaw : q.predicate.raw = none) (j : Option Join) :
    (select table q j).fragment.plain = true := by
  have hcolumns : (Clause.columns q.columns).plain = true := by
    simp only [Clause.columns, apply_ite plain]
    simp [token, ident, Piece.isRaw]
  have hjoin (x : Join) : (x.fragment table).plain = true := by
    simp [Join.fragment, conjunction, ident, Join.equation, Piece.isRaw]
  simp [fragment, source, hcolumns, hjoin, plain_tail noRaw, token, Piece.isRaw]

end Statement

/-! ### Selections -/

namespace Join

/-- The join was read from column pairs as they are written. -/
def Accepted (j : Join) : Prop := ∃ written, Join.read j.target written = .ok j

theorem Accepted.pairs_ne_nil {j : Join} (h : j.Accepted) : j.pairs ≠ [] := by
  obtain ⟨written, h⟩ := h
  unfold read at h
  split at h
  · cases h
  split at h
  · cases h
  next hne =>
    -- every pair that is written gives one that is read
    rintro hnil
    obtain ⟨target, pairs⟩ := j
    obtain rfl : pairs = [] := hnil
    cases written with
    | nil => exact hne rfl
    | cons pair written =>
      rw [List.mapM_cons] at h
      cases hpair : readPair pair with
      | error e =>
        rw [hpair] at h
        cases h
      | ok p =>
        rw [hpair] at h
        cases hrest : written.mapM readPair <;> rw [hrest] at h <;> cases h

theorem link_injective (source : String) : Function.Injective (link source) := by
  rintro ⟨target, pairs⟩ ⟨target', pairs'⟩ h
  rw [link, link, Link.mk.injEq] at h
  obtain ⟨rfl, h⟩ := h
  have hpair : Function.Injective fun pair : String × String =>
      ((source, pair.1), (target, pair.2)) := by
    rintro ⟨left, right⟩ ⟨left', right'⟩ h
    simpa using h
  exact congrArg (Join.mk target) (List.map_injective_iff.2 hpair h)

end Join

theorem Sentence.read?_render {d : Dialect} {s : Statement} {stops : List Lexeme} {x : Sentence}
    (hplain : s.fragment.plain = true)
    (h : Reader.Reads (Reader.sentence d.clock) (s.fragment.lexemes d.clock) x stops) :
    read? d (s.render d) = some x := by
  have hread := h [] Reader.apart_nil_right
  rw [List.append_nil] at hread
  rw [read?, Statement.render, lexemes_of_render hplain]
  show (Reader.sentence d.clock (s.fragment.lexemes d.clock)).bind _ = _
  rw [hread]
  rfl

/-- **A selection is read back**: the included columns, the table, the join, one test for every
comparison, the order, and the counts as they are written.  So two selections with one text agree
in all of these. -/
theorem Sentence.read?_select (d : Dialect) (table : String) {q : Query}
    (noRaw : q.predicate.raw = none) {join : Option Join} (accepted : ∀ j ∈ join, j.Accepted) :
    read? d ((Statement.select table q join).render d) =
        some (.select (Query.included q.columns) table (join.map (Join.link table)) q.ending
          (q.offset.map fun n => min n.toNat Piece.maxCount)) ∧
      ∀ (table' : String) (q' : Query) (join' : Option Join), q'.predicate.raw = none →
        (∀ j ∈ join', j.Accepted) →
        (Statement.select table' q' join').render d = (Statement.select table q join).render d →
        Query.included q'.columns = Query.included q.columns ∧ table' = table ∧ join' = join ∧
          q'.ending = q.ending ∧ (q'.offset.map fun n => min n.toNat Piece.maxCount) =
            q.offset.map fun n => min n.toNat Piece.maxCount := by
  have hread (table : String) (q : Query) (join : Option Join) (noRaw : q.predicate.raw = none)
      (accepted : ∀ j ∈ join, j.Accepted) :
      read? d ((Statement.select table q join).render d) =
        some (.select (Query.included q.columns) table (join.map (Join.link table)) q.ending
          (q.offset.map fun n => min n.toNat Piece.maxCount)) :=
    read?_render (Statement.plain_select table noRaw join)
      (Reader.reads_select table noRaw fun j hj => (accepted j hj).pairs_ne_nil)
  refine ⟨hread table q join noRaw accepted, ?_⟩
  intro table' q' join' noRaw' accepted' htext
  have hsame := (hread table' q' join' noRaw' accepted').symm.trans
    (htext ▸ hread table q join noRaw accepted)
  simp only [Option.some.injEq, Sentence.select.injEq] at hsame
  obtain ⟨hcolumns, rfl, hlink, hending, hoffset⟩ := hsame
  exact ⟨hcolumns, rfl, Option.map_injective (Join.link_injective _) hlink, hending, hoffset⟩

/-- A name that ends its own quoting, an empty list of comparisons, a text that looks like a
condition, and a count that is too large. -/
theorem Sentence.read?_select_marks :
    read? .postgreSQL ((Statement.select "a\x22 WHERE"
        { columns := [("x", false), ("id, n", true)]
          predicate.fields := [("n", .all []), ("s", .is (.text "\x27 OR TRUE")),
            ("k", .all [⟨.ne, .null⟩, ⟨.lt, .integer (-5)⟩])]
          ordering := [("k", .descending)]
          limit := some (-1) }
        (some ⟨"b", [("x", "y")]⟩)).render .postgreSQL) =
      some (.select ["id, n"] "a\x22 WHERE" (some ⟨"b", [(("a\x22 WHERE", "x"), ("b", "y"))]⟩)
        ⟨[.compare "s" .eq "\x27\x27\x27 OR TRUE\x27", .present "k", .compare "k" .lt "-5"],
          [("k", .descending)], some 9223372036854775807⟩ none) := by
  have accepted : ∀ j ∈ some (Join.mk "b" [("x", "y")]), j.Accepted := by
    rintro _ ⟨⟩
    exact ⟨["x:y"], by decide⟩
  exact (read?_select .postgreSQL "a\x22 WHERE" rfl accepted).1

/-! ### Insertions, changes and removals -/

namespace Statement

theorem plain_insert (table : String) (record : Record) (stamps : Stamps) :
    (insert table record stamps).fragment.plain = true := by
  simp [fragment, Clause.insertedColumns, Clause.insertedValues, parens, token, ident,
    literal, Piece.isRaw]

theorem plain_update (table : String) (record : Record) (stamps : Stamps) {q : Query}
    (noRaw : q.predicate.raw = none) : (update table record stamps q).fragment.plain = true := by
  simp [fragment, Clause.assignment, Fragment.compare, plain_tail noRaw, token, ident, literal,
    Piece.isRaw]

theorem plain_delete (table : String) {q : Query} (noRaw : q.predicate.raw = none) :
    (delete table q).fragment.plain = true := by
  simp [fragment, source, plain_tail noRaw, token, Piece.isRaw]

end Statement

/-- **Insertions, changes and removals are read back.**  An insertion has two columns more than its
record, and as many entries; a change has one assignment more.  A change and a removal have the
tests, the order and the limit of their query, and nothing of its columns and its offset. -/
theorem Sentence.read?_write (d : Dialect) (table : String) (record : Record) (stamps : Stamps)
    {q : Query} (noRaw : q.predicate.raw = none) :
    read? d ((Statement.insert table record stamps).render d) =
        some (.insert table (record.map (·.1) ++ [stamps.created, stamps.updated])
          (record.map (fun f => .literal f.2.literal) ++ [.clock, .clock])) ∧
      read? d ((Statement.update table record stamps q).render d) =
        some (.update table (record.map (fun f => (f.1, .literal f.2.literal)) ++
          [(stamps.updated, .clock)]) q.ending) ∧
      read? d ((Statement.delete table q).render d) = some (.delete table q.ending) ∧
      ∀ q' : Query, q'.predicate = q.predicate → q'.ordering = q.ordering → q'.limit = q.limit →
        (Statement.update table record stamps q').render d =
            (Statement.update table record stamps q).render d ∧
          (Statement.delete table q').render d = (Statement.delete table q).render d := by
  refine ⟨read?_render (Statement.plain_insert table record stamps)
      (Reader.reads_insert table record stamps),
    read?_render (Statement.plain_update table record stamps noRaw)
      (Reader.reads_update table record stamps noRaw),
    read?_render (Statement.plain_delete table noRaw) (Reader.reads_delete table noRaw), ?_⟩
  intro q' hpredicate hordering hlimit
  have htail : Statement.tail q' false = Statement.tail q false := by
    rw [Statement.tail, Statement.tail, hpredicate, hordering, hlimit]
    rfl
  simp only [Statement.render, Statement.fragment, htail, and_self]

/-- A text that looks like the end of a row, and a name that looks like an assignment. -/
theorem Sentence.read?_write_marks :
    read? .mysql ((Statement.insert "t" [("a, b", .text "\x27), (1")] {}).render .mysql) =
        some (.insert "t" ["a, b", "createdAt", "updatedAt"]
          [.literal "\x27\x27\x27), (1\x27", .clock, .clock]) ∧
      read? .mysql ((Statement.update "t" [("a = 1, b", .null)] {}
          { predicate.fields := [("n", .all [])], offset := some 3 }).render .mysql) =
        some (.update "t" [("a = 1, b", .literal "NULL"), ("updatedAt", .clock)]
          ⟨[], [], none⟩) := by
  have hinsert := read?_write .mysql "t" [("a, b", .text "\x27), (1")] {} (q := {}) rfl
  have hupdate := read?_write .mysql "t" [("a = 1, b", .null)] {}
    (q := { predicate.fields := [("n", .all [])], offset := some 3 }) rfl
  exact ⟨hinsert.1, hupdate.2.1⟩

end Keyset
