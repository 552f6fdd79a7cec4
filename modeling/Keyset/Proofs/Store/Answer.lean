import Keyset.Proofs.Sql.Look
import Keyset.Proofs.Store.Truth
import Keyset.Session
import Keyset.Table
import Mathlib.Data.List.Sort

/-!
# Stores that answer queries

A query is answered from the rows of its table: the rows that its filter selects, sorted by its
order, cut to its counts and restricted to its columns.  `Reading.Answers` says so of a list of
rows; which of several equal rows comes first is left open.

* `Reading.answers_answer` : there is an answer to every query.
* `Statement.render_asWritten` : the text of a query shows its counts only as they are written.
* `Reading.answers_asWritten_iff` : counts are written no larger than a signed integer, and on a
  table with no more rows than that this changes no answer.
-/

namespace Keyset

namespace Direction

/-- The outcome of a comparison, seen in a direction. -/
def orient : Direction → Ordering → Ordering
  | ascending, o => o
  | descending, o => o.swap

end Direction

namespace Row

/-- The columns of the given names, as many times as they are named. -/
def restrict (names : List String) (row : Row) : Row :=
  names.filterMap fun name => (row.get? name).map (name, ·)

/-- The row as a query with the given columns shows it. -/
def project (columns : List (String × Bool)) (row : Row) : Row :=
  if Query.included columns = [] then row else row.restrict (Query.included columns)

theorem get?_restrict {names : List String} {column : String} (h : column ∈ names) (row : Row) :
    (row.restrict names).get? column = row.get? column := by
  induction names with
  | nil => simp at h
  | cons name names ih =>
    cases hn : row.get? name with
    | none =>
      have hr : row.restrict (name :: names) = row.restrict names := by simp [restrict, hn]
      rw [hr]
      by_cases hc : column = name
      · -- the column is absent from the row, and so it is from what is left of the row
        rw [hc, hn, get?, List.lookup_eq_none_iff]
        rintro ⟨other, v⟩ hv
        obtain ⟨_, -, hm⟩ := List.mem_filterMap.1 hv
        obtain ⟨w, hw, he⟩ := Option.map_eq_some_iff.1 hm
        obtain ⟨rfl, rfl⟩ := Prod.mk.inj he
        rw [bne_iff_ne]
        rintro rfl
        simp [hn] at hw
      · exact ih ((List.mem_cons.1 h).resolve_left hc)
    | some v =>
      have hr : row.restrict (name :: names) = (name, v) :: row.restrict names := by
        simp [restrict, hn]
      rw [hr, get?, List.lookup_cons]
      by_cases hc : column = name
      · simp [hc, hn]
      · have hb : (column == name) = false := by simpa using hc
        rw [hb]
        exact ih ((List.mem_cons.1 h).resolve_left hc)

/-- A column survives the projection if all columns are shown or it is named. -/
theorem get?_project {columns : List (String × Bool)} {column : String}
    (h : Query.included columns ≠ [] → column ∈ Query.included columns) (row : Row) :
    (row.project columns).get? column = row.get? column := by
  by_cases hc : Query.included columns = []
  · simp [project, hc]
  · rw [project, if_neg hc, get?_restrict (h hc)]

end Row

namespace Query

/-- The rows that the counts of a query leave of a sorted list. -/
def cut (q : Query) (rows : List Row) : List Row :=
  let rest := rows.drop (q.offset.elim 0 UInt64.toNat)
  q.limit.elim rest fun n => rest.take n.toNat

/-- The count that is written in place of `n`. -/
def writtenCount (n : UInt64) : UInt64 := UInt64.ofNat (min n.toNat Piece.maxCount)

/-- The query with its counts as they are written. -/
def asWritten (q : Query) : Query :=
  { q with limit := q.limit.map writtenCount, offset := q.offset.map writtenCount }

theorem toNat_writtenCount (n : UInt64) : (writtenCount n).toNat = min n.toNat Piece.maxCount := by
  rw [writtenCount, UInt64.toNat_ofNat_of_lt']
  have h : Piece.maxCount < UInt64.size := by decide
  omega

theorem writtenCount_writtenCount (n : UInt64) :
    writtenCount (writtenCount n) = writtenCount n := by
  apply UInt64.toNat.inj
  rw [toNat_writtenCount, toNat_writtenCount, Nat.min_assoc, Nat.min_self]

theorem cut_asWritten (q : Query) {rows : List Row} (h : rows.length ≤ Piece.maxCount) :
    q.asWritten.cut rows = q.cut rows := by
  have ht (l : List Row) (hl : l.length ≤ Piece.maxCount) (n : UInt64) :
      l.take (writtenCount n).toNat = l.take n.toNat := by
    rw [toNat_writtenCount, ← List.take_take, List.take_of_length_le hl]
  have hd (n : UInt64) : rows.drop (writtenCount n).toNat = rows.drop n.toNat := by
    rw [toNat_writtenCount]
    rcases Nat.le_total n.toNat Piece.maxCount with hn | hn
    · rw [Nat.min_eq_left hn]
    · rw [Nat.min_eq_right hn, List.drop_eq_nil_of_le h, List.drop_eq_nil_of_le (Nat.le_trans h hn)]
  have ho : q.asWritten.offset.elim 0 UInt64.toNat =
      q.offset.elim 0 fun n => (writtenCount n).toNat := by
    cases h : q.offset <;> simp [asWritten, h]
  have hdrop : rows.drop (q.offset.elim 0 fun n => (writtenCount n).toNat) =
      rows.drop (q.offset.elim 0 UInt64.toNat) := by
    cases q.offset with
    | none => rfl
    | some n => exact hd n
  rw [cut, cut, ho, hdrop]
  cases hl : q.limit with
  | none => simp [asWritten, hl]
  | some n =>
    have hlen : (rows.drop (q.offset.elim 0 UInt64.toNat)).length ≤ Piece.maxCount := by
      rw [List.length_drop]; omega
    simpa [asWritten, hl] using ht _ hlen n

end Query

/-! ### Written counts -/

/-- The piece with its count as it is written. -/
def Piece.asWritten : Piece → Piece
  | count n => count (Query.writtenCount n)
  | c => c

namespace Fragment

/-- The text of a row of pieces shows no more of the counts than what is written. -/
theorem spell_map_asWritten (d : Dialect) (pieces : List Piece) :
    spell d (pieces.map Piece.asWritten) = spell d pieces := by
  have hlook (c : Piece) : c.asWritten.look d = c.look d := by
    cases c with
    | count n =>
      refine Piece.look_eq_iff.2 ⟨?_, rfl, rfl, rfl⟩
      show Decimal.natText (min (Query.writtenCount n).toNat Piece.maxCount) = _
      rw [Query.toNat_writtenCount, Nat.min_assoc, Nat.min_self]
      rfl
    | _ => rfl
  refine spell_eq_of_map_look ?_
  rw [List.map_map]
  exact List.map_congr_left fun c _ => hlook c

theorem map_asWritten_clause (t : Token) (n : Option UInt64) :
    (((n.map Query.writtenCount).map fun n => (token t).push (.count n)).getD empty).pieces.map
        Piece.asWritten =
      ((n.map fun n => (token t).push (.count n)).getD empty).pieces.map Piece.asWritten := by
  cases n with
  | none => rfl
  | some n =>
    have hcount := congrArg Piece.count (Query.writtenCount_writtenCount n)
    exact congrArg (fun c => [Piece.token t, c]) hcount

end Fragment

/-- **A selection has the text of the selection with its counts as they are written.** -/
theorem Statement.render_asWritten (d : Dialect) (name : String) (q : Query) (j : Option Join) :
    (select name q.asWritten j).render d = (select name q j).render d := by
  have hlimit : Clause.limit = fun n => (Fragment.token .LIMIT).push (.count n) := rfl
  have hoffset : Clause.offset = fun n => (Fragment.token .OFFSET).push (.count n) := rfl
  have hpieces : (select name q.asWritten j).fragment.pieces.map Piece.asWritten =
      (select name q j).fragment.pieces.map Piece.asWritten := by
    simp only [fragment, tail_eq, Fragment.pieces_append, List.map_append, Query.asWritten, if_true,
      hlimit, hoffset, Fragment.map_asWritten_clause]
  rw [render, render, Fragment.render, Fragment.render, ← Fragment.spell_map_asWritten, hpieces,
    Fragment.spell_map_asWritten]

namespace Reading

variable (R : Reading)

/-- The order of the values of a column along a direction. -/
def along (column : String) (d : Direction) (v w : Value) : Ordering := d.orient (R.cmp column v w)

instance (column : String) (d : Direction) : Std.TransCmp (R.along column d) := by
  cases d with
  | ascending => exact R.lawful column
  | descending =>
    have h : R.along column .descending = fun v w => R.cmp column w v := by
      funext v w
      exact Std.OrientedCmp.eq_swap.symm
    rw [h]
    infer_instance

theorem along_self (column : String) (d : Direction) (v : Value) : R.along column d v v = .eq :=
  Std.ReflCmp.compare_self

/-- The order of rows in which a query lists them: by the first column that tells them apart. -/
def rowOrder : List (String × Direction) → Row → Row → Ordering
  | [], _, _ => .eq
  | (field, d) :: rest, a, b =>
    (R.along field d (a.value field) (b.value field)).then (rowOrder rest a b)

instance (ordering : List (String × Direction)) : Std.TransCmp (R.rowOrder ordering) := by
  induction ordering with
  | nil => exact { eq_swap := rfl, isLE_trans := fun _ _ => rfl }
  | cons entry rest ih =>
    obtain ⟨field, d⟩ := entry
    have : Std.TransCmp fun a b : Row => R.along field d (a.value field) (b.value field) :=
      { eq_swap := Std.OrientedCmp.eq_swap, isLE_trans := Std.TransCmp.isLE_trans }
    exact inferInstanceAs (Std.TransCmp (compareLex
      (fun a b : Row => R.along field d (a.value field) (b.value field)) (R.rowOrder rest)))

/-- The list answers the query from the rows of its table. -/
def Answers (rows : List Row) (q : Query) (answer : List Row) : Prop :=
  ∃ sorted : List Row, sorted.Perm (rows.filter (R.selects q.predicate)) ∧
    sorted.Pairwise (fun a b => (R.rowOrder q.ordering a b).isLE) ∧
    answer = (q.cut sorted).map (Row.project q.columns)

/-- The answer that keeps equal rows in the order of the table. -/
def answer (rows : List Row) (q : Query) : List Row :=
  let sorted := (rows.filter (R.selects q.predicate)).insertionSort
    fun a b => (R.rowOrder q.ordering a b).isLE
  (q.cut sorted).map (Row.project q.columns)

theorem answers_answer (rows : List Row) (q : Query) : R.Answers rows q (R.answer rows q) := by
  have : IsTrans Row fun a b => (R.rowOrder q.ordering a b).isLE :=
    ⟨fun _ _ _ => Std.TransCmp.isLE_trans⟩
  have : Std.Total fun a b : Row => (R.rowOrder q.ordering a b).isLE := by
    refine ⟨fun a b => ?_⟩
    rw [← Std.OrientedCmp.isGE_iff_isLE (a := a) (b := b)]
    cases R.rowOrder q.ordering a b <;> simp
  exact ⟨_, List.perm_insertionSort _ _, List.pairwise_insertionSort _ _, rfl⟩

variable {R}

/-- On a table with no more rows than a count can be written, the written counts change no
answer. -/
theorem answers_asWritten_iff {rows answer : List Row} {q : Query}
    (small : rows.length ≤ Piece.maxCount) :
    R.Answers rows q.asWritten answer ↔ R.Answers rows q answer := by
  unfold Answers
  refine exists_congr fun sorted => and_congr_right fun hp => ?_
  have hl : sorted.length ≤ Piece.maxCount := by
    rw [hp.length_eq]
    exact Nat.le_trans (List.length_filter_le _ _) small
  rw [Query.cut_asWritten q hl]
  rfl

end Reading

/-! ### Hosts -/

/-- The host answers the queries asked of a table from the rows that the table has in the state in
which the statement is run. -/
def Host.Serves {σ : Type} (h : Host σ) (name : String) (asked : Query → Prop)
    (rows : σ → List Row) (answers : List Row → Query → List Row → Prop) : Prop :=
  ∀ q s, asked q → ∃ answer,
    (h.execute (.select name q none) s).1 = .ok answer ∧ answers (rows s) q answer

/-- The host that answers each selection from the rows in its state and then moves on. -/
def Reading.host {σ : Type} (R : Reading) (rows : σ → List Row) (next : σ → σ) : Host σ where
  execute s x := match s with
    | .select _ q _ => (.ok (R.answer (rows x) q), next x)
    | _ => (.ok [], next x)
  release _ _ := .ok ()
  background := none

theorem Reading.serves_host {σ : Type} (R : Reading) (rows : σ → List Row) (next : σ → σ)
    (name : String) (asked : Query → Prop) :
    (R.host rows next).Serves name asked rows R.Answers :=
  fun q x _ => ⟨R.answer (rows x) q, rfl, R.answers_answer (rows x) q⟩

end Keyset
