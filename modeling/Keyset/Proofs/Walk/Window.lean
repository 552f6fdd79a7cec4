import Keyset.Proofs.Store.Answer
import Mathlib.Data.List.Sort

/-!
# The rows of a walk

A walk visits the rows in its *window*: those that the filter of the request selects, at the resume
point or past it, and before the far bound.  It visits them in the order of the key, one row before
another iff it is strictly `Ahead`.

A store answers a query of a walk from the selected rows in this order, rows with one key in any
order (`Reading.Lists`).  On a table whose keys are pairwise distinct the order leaves nothing open,
so there is one such list (`Reading.Lists.eq_of_distinct`).  The two queries are answered from

* `Reading.visited` : the rows in the window, in the order of the walk;
* `Reading.beyond` : the rows that the walk, wherever it began, visits past a key.
-/

namespace Keyset

namespace PageRequest

variable (r : PageRequest) (since : Option Cursor)

/-- The direction in which a request walks. -/
def direction : Direction := Direction.ofFlag r.reverse

/-- The request with another resume point, or with none. -/
def startingAt : PageRequest := { r with since }

@[simp] theorem since_startingAt : (r.startingAt since).since = since := rfl

@[simp] theorem bound_startingAt : (r.startingAt since).bound = r.bound := rfl

@[simp] theorem predicate_startingAt : (r.startingAt since).predicate = r.predicate := rfl

@[simp] theorem direction_startingAt : (r.startingAt since).direction = r.direction := rfl

@[simp] theorem startingAt_startingAt (c : Option Cursor) :
    (r.startingAt since).startingAt c = r.startingAt c := rfl

theorem startingAt_since : r.startingAt r.since = r := rfl

end PageRequest

namespace Table

variable (t : Table)

/-- The column of the key that a request walks along. -/
def keyOf (r : PageRequest) : String := r.key.getD t.settings.key

/-- The number of rows of the pages of a request. -/
def limitOf (r : PageRequest) : UInt64 := r.limit.getD t.settings.pageSize

/-- The stretch of a walk that a request asks for. -/
def stretch (r : PageRequest) : Walk := Walk.ofRequest r t.settings.key t.settings.pageSize

/-- The query is one that a walk may ask for, wherever it resumes the request. -/
def Asks (r : PageRequest) (q : Query) : Prop :=
  ∃ since, q = (t.stretch (r.startingAt since)).page 0 ∨
    q = (t.stretch (r.startingAt since)).page 1 ∨
    ∃ last, q = (t.stretch (r.startingAt since)).probe last

@[simp] theorem keyOf_startingAt (r : PageRequest) (since : Option Cursor) :
    t.keyOf (r.startingAt since) = t.keyOf r := rfl

@[simp] theorem limitOf_startingAt (r : PageRequest) (since : Option Cursor) :
    t.limitOf (r.startingAt since) = t.limitOf r := rfl

end Table

/-! ### Keys -/

namespace Row

/-- Every row has the column of the key, with a value that is not written as the absent one. -/
def AllHave (key : String) (rows : List Row) : Prop :=
  ∀ row ∈ rows, ∃ v, row.get? key = some v ∧ v.isWrittenNull = false

namespace AllHave

variable {key : String} {rows : List Row}

theorem get? (h : AllHave key rows) {row : Row} (hr : row ∈ rows) :
    row.get? key = some (row.value key) := by
  obtain ⟨v, hv, -⟩ := h row hr
  rw [Row.value_of_get? hv, hv]

theorem isWrittenNull (h : AllHave key rows) {row : Row} (hr : row ∈ rows) :
    (row.value key).isWrittenNull = false := by
  obtain ⟨v, hv, hn⟩ := h row hr
  rwa [Row.value_of_get? hv]

theorem isNull (h : AllHave key rows) {row : Row} (hr : row ∈ rows) :
    (row.value key).isNull = false :=
  Value.isNull_eq_false_of_isWrittenNull (h.isWrittenNull hr)

end AllHave

end Row

namespace Reading

section

variable (R : Reading)

/-- A row comes strictly before another one in the direction of a walk along a key. -/
def Ahead (key : String) (d : Direction) (a b : Row) : Prop :=
  R.along key d (a.value key) (b.value key) = .lt

/-- Every row has a key that a cursor keeps as it is, and no two rows have the same one. -/
structure Keyed (key : String) (rows : List Row) : Prop where
  /-- The key is there, and a cursor keeps it. -/
  present : ∀ row ∈ rows, ∃ v,
    row.get? key = some v ∧ v.isWrittenNull = false ∧ (Cursor.ofKey v).value = v
  /-- The keys are pairwise distinct. -/
  distinct : rows.Pairwise fun a b => R.cmp key (a.value key) (b.value key) ≠ .eq

/-- The keys are pairwise distinct, whatever a cursor makes of them. -/
def Distinct (key : String) (rows : List Row) : Prop :=
  rows.Pairwise fun a b => R.cmp key (a.value key) (b.value key) ≠ .eq

/-- The list holds the chosen rows, sorted along the walk.  Rows with keys that compare as equal
come in any order. -/
structure Lists (key : String) (d : Direction) (p : Row → Bool) (rows sorted : List Row) :
    Prop where
  perm : sorted.Perm (rows.filter p)
  sorted : sorted.Pairwise fun a b => (R.along key d (a.value key) (b.value key)).isLE

end

variable {R : Reading} {key : String} {d : Direction} {rows : List Row}

instance : DecidableRel (R.Ahead key d) := fun a b =>
  decEq (R.along key d (a.value key) (b.value key)) .lt

theorem Ahead.trans {a b c : Row} (hab : R.Ahead key d a b) (hbc : R.Ahead key d b c) :
    R.Ahead key d a c :=
  Std.TransCmp.lt_trans hab hbc

theorem Ahead.irrefl (a : Row) : ¬ R.Ahead key d a a := by
  intro h
  rw [Ahead, along_self] at h
  cases h

theorem Ahead.asymm {a b : Row} (hab : R.Ahead key d a b) : ¬ R.Ahead key d b a :=
  fun hba => Ahead.irrefl a (hab.trans hba)

theorem Ahead.isLE {a b : Row} (h : R.Ahead key d a b) :
    (R.along key d (a.value key) (b.value key)).isLE = true :=
  Ordering.isLE_of_eq_lt h

theorem Ahead.not_isLE {a b : Row} (h : R.Ahead key d a b) :
    ¬ (R.along key d (b.value key) (a.value key)).isLE = true :=
  Std.OrientedCmp.not_isLE_of_lt h

/-- **A list in the order of a walk is determined by its members.** -/
theorem eq_of_pairwise_ahead {l l' : List Row} (h : l.Pairwise (R.Ahead key d))
    (h' : l'.Pairwise (R.Ahead key d)) (hm : ∀ row, row ∈ l ↔ row ∈ l') : l = l' := by
  have : Std.Antisymm (R.Ahead key d) := ⟨fun _ _ hab hba => absurd hba hab.asymm⟩
  have : Std.Irrefl (R.Ahead key d) := ⟨Ahead.irrefl⟩
  exact h.eq_of_mem_iff h' hm

namespace Keyed

theorem allHave (h : R.Keyed key rows) : Row.AllHave key rows := by
  intro row hr
  obtain ⟨v, hv, hn, -⟩ := h.present row hr
  exact ⟨v, hv, hn⟩

theorem get? (h : R.Keyed key rows) {row : Row} (hr : row ∈ rows) :
    row.get? key = some (row.value key) :=
  h.allHave.get? hr

theorem isWrittenNull (h : R.Keyed key rows) {row : Row} (hr : row ∈ rows) :
    (row.value key).isWrittenNull = false :=
  h.allHave.isWrittenNull hr

theorem isNull (h : R.Keyed key rows) {row : Row} (hr : row ∈ rows) :
    (row.value key).isNull = false :=
  h.allHave.isNull hr

theorem value_ofKey (h : R.Keyed key rows) {row : Row} (hr : row ∈ rows) :
    (Cursor.ofKey (row.value key)).value = row.value key := by
  obtain ⟨v, hv, -, hc⟩ := h.present row hr
  rwa [Row.value_of_get? hv]

theorem iff_decidable : R.Keyed key rows ↔
    (∀ row ∈ rows,
      (row.get? key).any (fun v => !v.isWrittenNull && v.wholeSecond = v) = true) ∧
      rows.Pairwise fun a b => R.cmp key (a.value key) (b.value key) ≠ .eq := by
  refine ⟨fun h => ⟨fun row hr => ?_, h.distinct⟩, fun h => ⟨fun row hr => ?_, h.2⟩⟩
  · obtain ⟨v, hv, hn, hc⟩ := h.present row hr
    have hw : v.wholeSecond = v := hc
    simp [hv, hn, hw]
  · obtain ⟨v, hv, hk⟩ := (Option.any_eq_true _ _).1 (h.1 row hr)
    rw [Bool.and_eq_true, Bool.not_eq_true', decide_eq_true_eq] at hk
    exact ⟨v, hv, hk⟩

instance : Decidable (R.Keyed key rows) := decidable_of_iff _ iff_decidable.symm

end Keyed

namespace Lists

variable {p : Row → Bool} {sorted : List Row}

theorem mem_iff (h : R.Lists key d p rows sorted) {row : Row} :
    row ∈ sorted ↔ row ∈ rows ∧ p row = true := by
  rw [h.perm.mem_iff, List.mem_filter]

theorem length_le (h : R.Lists key d p rows sorted) : sorted.length ≤ rows.length := by
  rw [h.perm.length_eq]
  exact List.length_filter_le _ _

/-- The first row is not past any other. -/
theorem isLE_head (h : R.Lists key d p rows sorted) {first row : Row}
    (hfirst : sorted.head? = some first) (hrow : row ∈ sorted) :
    (R.along key d (first.value key) (row.value key)).isLE = true := by
  obtain ⟨rest, rfl⟩ := List.head?_eq_some_iff.1 hfirst
  rcases List.mem_cons.1 hrow with rfl | hrow
  · exact Std.ReflCmp.isLE_rfl
  · exact (List.pairwise_cons.1 h.sorted).1 row hrow

/-- Rows with pairwise distinct keys are in the order of the walk. -/
theorem pairwise_ahead (h : R.Lists key d p rows sorted) (distinct : R.Distinct key rows) :
    sorted.Pairwise (R.Ahead key d) := by
  have hd : sorted.Pairwise fun a b => R.cmp key (a.value key) (b.value key) ≠ .eq :=
    (distinct.filter p).perm h.perm.symm fun hne he => hne (Std.OrientedCmp.eq_comm.1 he)
  refine (h.sorted.and hd).imp ?_
  rintro a b ⟨hle, hne⟩
  have hne' : R.along key d (a.value key) (b.value key) ≠ .eq := by
    cases d <;> simpa [along, Direction.orient] using hne
  rw [Ahead]
  revert hle hne'
  cases R.along key d (a.value key) (b.value key) <;> simp

/-- **The order of rows with pairwise distinct keys leaves nothing open.** -/
theorem eq_of_distinct (h : R.Lists key d p rows sorted) (distinct : R.Distinct key rows)
    {sorted' : List Row} (h' : R.Lists key d p rows sorted') : sorted = sorted' := by
  refine eq_of_pairwise_ahead (h.pairwise_ahead distinct) (h'.pairwise_ahead distinct) fun row => ?_
  rw [h.mem_iff, h'.mem_iff]

/-- A list is cut down to a choice of its rows. -/
theorem filter (h : R.Lists key d p rows sorted) {q : Row → Bool}
    (hq : ∀ row ∈ rows, q row = true → p row = true) : R.Lists key d q rows (sorted.filter q) where
  perm := by
    have hfilter := h.perm.filter q
    rw [List.filter_filter] at hfilter
    refine hfilter.trans (.of_eq (List.filter_congr fun row hmem => ?_))
    cases hrow : q row with
    | false => rfl
    | true => rw [hq row hmem hrow, Bool.and_self]
  sorted := h.sorted.filter q

end Lists

/-! ### The window -/

section

variable (R : Reading)

/-- The value of the key is at the bound or past it. -/
def reaches (key : String) (d : Direction) (v bound : Value) : Bool :=
  (R.outcome? key v bound).any fun o => (d.orient o).isGE

/-- The value of the key is past the bound. -/
def passes (key : String) (d : Direction) (v bound : Value) : Bool :=
  (R.outcome? key v bound).any fun o => (d.orient o).isGT

/-- The value of the key is before the bound. -/
def precedes (key : String) (d : Direction) (v bound : Value) : Bool :=
  (R.outcome? key v bound).any fun o => (d.orient o).isLT

/-- The row is in the window of a request: the filter selects it, its key is at the resume point or
past it, and before the far bound. -/
def inWindow (t : Table) (r : PageRequest) (row : Row) : Bool :=
  R.selects r.predicate row &&
    r.since.all (fun c => R.reaches (t.keyOf r) r.direction (row.value (t.keyOf r)) c.value) &&
    r.bound.all (fun c => R.precedes (t.keyOf r) r.direction (row.value (t.keyOf r)) c.value)

/-- The rows in the window of a request, in the order of the walk. -/
def visited (t : Table) (r : PageRequest) (rows : List Row) : List Row :=
  (rows.filter (R.inWindow t r)).mergeSort fun a b =>
    (R.along (t.keyOf r) r.direction (a.value (t.keyOf r)) (b.value (t.keyOf r))).isLE

/-- The row is one that a walk visits past a key, wherever it began. -/
def isPast (t : Table) (r : PageRequest) (last : Value) (row : Row) : Bool :=
  R.inWindow t (r.startingAt none) row &&
    R.passes (t.keyOf r) r.direction (row.value (t.keyOf r)) last

/-- The rows that a walk visits past a key, wherever it began. -/
def beyond (t : Table) (r : PageRequest) (last : Value) (rows : List Row) : List Row :=
  (R.visited t (r.startingAt none) rows).filter fun row =>
    R.passes (t.keyOf r) r.direction (row.value (t.keyOf r)) last

end

theorem comparison_iff_any {op : Operator} (hop : op ≠ .eq ∧ op ≠ .ne) {p : Ordering → Bool}
    (hp : ∀ o, op.accepts o = p (d.orient o)) {v bound : Value} :
    R.comparison key ⟨op, bound⟩ v = .yes ↔
      ((R.outcome? key v bound).any fun o => p (d.orient o)) = true := by
  rw [comparison_eq_yes_iff hop.1 hop.2, funext hp]

theorem comparison_resume {v bound : Value} :
    R.comparison key ⟨d.resume, bound⟩ v = .yes ↔ R.reaches key d v bound = true := by
  refine comparison_iff_any (by cases d <;> decide) ?_
  intro o
  cases d <;> cases o <;> rfl

theorem comparison_beyond {v bound : Value} :
    R.comparison key ⟨d.beyond, bound⟩ v = .yes ↔ R.passes key d v bound = true := by
  refine comparison_iff_any (by cases d <;> decide) ?_
  intro o
  cases d <;> cases o <;> rfl

theorem comparison_within {v bound : Value} :
    R.comparison key ⟨d.within, bound⟩ v = .yes ↔ R.precedes key d v bound = true := by
  refine comparison_iff_any (by cases d <;> decide) ?_
  intro o
  cases d <;> cases o <;> rfl

theorem reaches_iff {v bound : Value} (hv : v.isNull = false) :
    R.reaches key d v bound = true ↔
      bound.isWrittenNull = false ∧ (R.along key d v bound).isGE = true := by
  cases hb : bound.isWrittenNull <;> simp [reaches, outcome?, hv, hb, along]

theorem passes_iff {v bound : Value} (hv : v.isNull = false) :
    R.passes key d v bound = true ↔ bound.isWrittenNull = false ∧ R.along key d v bound = .gt := by
  cases hb : bound.isWrittenNull <;> simp [passes, outcome?, hv, hb, along]

theorem reaches_of_isLE {v w bound : Value} (hv : v.isNull = false) (hw : w.isNull = false)
    (h : R.reaches key d v bound = true) (hvw : (R.along key d v w).isLE = true) :
    R.reaches key d w bound = true := by
  obtain ⟨hb, hge⟩ := (reaches_iff hv).1 h
  exact (reaches_iff hw).2 ⟨hb, Std.TransCmp.isGE_trans (Std.OrientedCmp.isGE_of_isLE hvw) hge⟩

variable {t : Table} {r : PageRequest}

theorem inWindow_iff {row : Row} : R.inWindow t r row = true ↔
    R.inWindow t (r.startingAt none) row = true ∧
      ∀ c, r.since = some c →
        R.reaches (t.keyOf r) r.direction (row.value (t.keyOf r)) c.value = true := by
  simp only [inWindow, PageRequest.since_startingAt, PageRequest.bound_startingAt,
    PageRequest.predicate_startingAt, PageRequest.direction_startingAt, Table.keyOf_startingAt,
    Bool.and_eq_true, Option.all_none, Option.all_eq_true, and_true]
  tauto

theorem selects_window {row : Row} : R.selects (t.stretch r).window row = true ↔
    R.inWindow t (r.startingAt none) row = true := by
  cases hb : r.bound with
  | none => simp [Table.stretch, Walk.ofRequest, inWindow, hb]
  | some c =>
    have hw : (t.stretch r).window =
        r.predicate.push (t.keyOf r) ⟨r.direction.within, c.value⟩ := by
      simp [Table.stretch, Walk.ofRequest, hb, Table.keyOf, PageRequest.direction]
    rw [hw, selects_push, comparison_within]
    simp [inWindow, hb]

theorem selects_page {row : Row} {more : UInt64} :
    R.selects ((t.stretch r).page more).predicate row = true ↔ R.inWindow t r row = true := by
  rw [inWindow_iff, ← selects_window]
  cases hs : r.since with
  | none => simp [Walk.page, Table.stretch, Walk.ofRequest, hs]
  | some c =>
    have hp : ((t.stretch r).page more).predicate =
        (t.stretch r).window.push (t.keyOf r) ⟨r.direction.resume, c.value⟩ := by
      simp [Walk.page, Table.stretch, Walk.ofRequest, hs, Table.keyOf, PageRequest.direction]
    rw [hp, selects_push, comparison_resume]
    simp

theorem selects_probe {row : Row} {last : Cursor} :
    R.selects ((t.stretch r).probe last).predicate row = true ↔
      R.isPast t r last.value row = true := by
  have hp : ((t.stretch r).probe last).predicate =
      (t.stretch r).window.push (t.keyOf r) ⟨r.direction.beyond, last.value⟩ := rfl
  rw [hp, selects_push, comparison_beyond, selects_window, isPast, Bool.and_eq_true]

/-! ### The order of the walk -/

theorem mem_visited {row : Row} :
    row ∈ R.visited t r rows ↔ row ∈ rows ∧ R.inWindow t r row = true := by
  simp [visited]

theorem isPast_iff {row : Row} {last : Value} : R.isPast t r last row = true ↔
    R.inWindow t (r.startingAt none) row = true ∧
      R.passes (t.keyOf r) r.direction (row.value (t.keyOf r)) last = true := by
  rw [isPast, Bool.and_eq_true]

theorem lists_visited :
    R.Lists (t.keyOf r) r.direction (R.inWindow t r) rows (R.visited t r rows) where
  perm := List.mergeSort_perm _ _
  sorted := by
    refine List.pairwise_mergeSort ?_ ?_ _
    · intro a b c hab hbc
      exact Std.TransCmp.isLE_trans hab hbc
    · intro a b
      rw [Bool.or_eq_true, ← Std.OrientedCmp.isGE_iff_isLE (a := a.value (t.keyOf r))]
      cases R.along (t.keyOf r) r.direction (a.value (t.keyOf r)) (b.value (t.keyOf r)) <;> simp

/-- Rows with pairwise distinct keys are visited in the one order that there is. -/
theorem visited_eq_of_perm (distinct : R.Distinct (t.keyOf r) rows) {inOrder : List Row}
    (perm : inOrder.Perm (rows.filter (R.inWindow t r)))
    (sorted : inOrder.Pairwise (R.Ahead (t.keyOf r) r.direction)) :
    R.visited t r rows = inOrder :=
  lists_visited.eq_of_distinct distinct ⟨perm, sorted.imp Ahead.isLE⟩

theorem lists_beyond (last : Value) :
    R.Lists (t.keyOf r) r.direction (R.isPast t r last) rows (R.beyond t r last rows) := by
  have hfilter : R.beyond t r last rows =
      (R.visited t (r.startingAt none) rows).filter (R.isPast t r last) := by
    refine List.filter_congr fun row hrow => ?_
    rw [isPast, (mem_visited.1 hrow).2, Bool.true_and]
  rw [hfilter]
  exact lists_visited.filter fun row _ hrow => (isPast_iff.1 hrow).1

theorem mem_beyond {row : Row} {last : Value} : row ∈ R.beyond t r last rows ↔
    row ∈ rows ∧ R.inWindow t (r.startingAt none) row = true ∧
      R.passes (t.keyOf r) r.direction (row.value (t.keyOf r)) last = true := by
  rw [(lists_beyond last).mem_iff, isPast_iff]

theorem Keyed.pairwise_visited (h : R.Keyed (t.keyOf r) rows) :
    (R.visited t r rows).Pairwise (R.Ahead (t.keyOf r) r.direction) :=
  lists_visited.pairwise_ahead h.distinct

theorem Keyed.pairwise_beyond (h : R.Keyed (t.keyOf r) rows) (last : Value) :
    (R.beyond t r last rows).Pairwise (R.Ahead (t.keyOf r) r.direction) :=
  (lists_beyond last).pairwise_ahead h.distinct

/-- **A query sorted by a key is answered from a list of the rows that it selects.** -/
theorem Answers.exists_lists {q : Query} {answer : List Row} {n : UInt64} {p : Row → Bool}
    (h : R.Answers rows q answer) (ho : q.ordering = [(key, d)]) (hn : q.limit = some n)
    (hoff : q.offset = none) (hp : ∀ row, R.selects q.predicate row = true ↔ p row = true) :
    ∃ sorted, R.Lists key d p rows sorted ∧
      answer = (sorted.take n.toNat).map (Row.project q.columns) := by
  obtain ⟨sorted, hperm, hs, rfl⟩ := h
  refine ⟨sorted, ⟨?_, ?_⟩, ?_⟩
  · rwa [← List.filter_congr fun row _ => Bool.eq_iff_iff.2 (hp row)]
  · refine hs.imp ?_
    intro a b hab
    simpa [ho, rowOrder] using hab
  · simp [Query.cut, hn, hoff]

end Reading

end Keyset
