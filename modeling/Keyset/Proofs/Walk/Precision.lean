import Keyset.Proofs.Calendar.Order
import Keyset.Proofs.Walk.Truncation

/-!
# The walk along timestamps

A store that compares timestamps to the nanosecond is asked with cursors that show whole seconds.
Whether a walk along such a key returns its window depends on where its pages end:
`Value.Separable` says it of the timestamps at the end of a page, for each direction and each
lookahead.

* `Reading.Precise.separates_iff` : this is what tells two pages apart.
* `Host.walk_exact_iff_separable` : **a walk ends and returns each row in its window once and in
  order iff its pages end at separable timestamps.**
* `Host.walk_skips_row` : it need not; of two rows within one second the second one is left out.
* `Host.walk_never_ends` : a walk that looks past its pages, up to a timestamp within a second,
  never ends.
-/

namespace Keyset

/-- A moment of the minute with which the year 2000 begins. -/
def Timestamp.inMinute (second : Fin 60) (nanos : Fin 1000000000) : Timestamp :=
  ⟨⟨2000, 1, 1, by decide, by decide⟩,
    ⟨0, 0, second, nanos, ⟨by decide, by decide, second.isLt⟩, by have := nanos.isLt; omega⟩⟩

/-- Every row has a timestamp in the column. -/
def Row.Stamped (key : String) (rows : List Row) : Prop :=
  ∀ row ∈ rows, ∃ s, row.get? key = some (.timestamp s)

/-- A page may end between the two timestamps, the last one on it and the one after it. -/
def Value.Separable (look : Lookahead) (d : Direction) (v w : Value) : Prop :=
  match look, d with
  -- the next page begins with the second of `w`
  | .overFetch, .ascending => v.wholeSecond ≠ w.wholeSecond
  -- the next page leaves out what is later than the beginning of the second of `w`
  | .overFetch, .descending => w.wholeSecond = w
  -- the same, and looking past `v` finds all that is later than the beginning of its second
  | .probe, .ascending => v.wholeSecond = v ∧ v.wholeSecond ≠ w.wholeSecond
  -- the same, and looking past `v` finds nothing of its second
  | .probe, .descending => w.wholeSecond = w ∧ v.wholeSecond ≠ w.wholeSecond

/-- A walk may end with the timestamp. -/
def Value.Final (look : Lookahead) (d : Direction) (v : Value) : Prop :=
  look = .probe → d = .ascending → v.wholeSecond = v

/-- The timestamp that a value is, or the first moment of the year 2000. -/
def Value.toTimestamp : Value → Timestamp
  | timestamp s => s
  | _ => .inMinute 0 0

@[simp] theorem Value.wholeSecond_timestamp (s : Timestamp) :
    (timestamp s).wholeSecond = timestamp s.wholeSecond := rfl

namespace Reading

/-- The timestamps of a column are compared to the nanosecond. -/
def Precise (R : Reading) (column : String) : Prop :=
  ∀ s u : Timestamp, R.cmp column (.timestamp s) (.timestamp u) = s.order u

namespace Precise

variable {R : Reading} {key : String} {rows : List Row} {look : Lookahead} {d : Direction}
  {a b : Row} {s u : Timestamp}

theorem floored (precise : R.Precise key) (stamped : Row.Stamped key rows)
    (distinct : rows.Pairwise fun a b => a.value key ≠ b.value key) : R.Floored key rows where
  present := by
    intro row hrow
    obtain ⟨s, hs⟩ := stamped row hrow
    exact ⟨_, hs, rfl⟩
  distinct := by
    refine distinct.imp_of_mem ?_
    intro a b ha hb hne heq
    obtain ⟨s, hs⟩ := stamped a ha
    obtain ⟨u, hu⟩ := stamped b hb
    rw [Row.value_of_get? hs, Row.value_of_get? hu] at hne heq
    rw [precise, Timestamp.order_eq_eq_iff] at heq
    exact hne (congrArg Value.timestamp heq)
  floor_le := by
    intro row hrow
    obtain ⟨s, hs⟩ := stamped row hrow
    rw [Row.value_of_get? hs]
    exact (precise _ s).symm ▸ s.order_wholeSecond_left

theorem along_ascending (precise : R.Precise key) :
    R.along key .ascending (.timestamp s) (.timestamp u) = s.order u :=
  precise s u

theorem along_descending (precise : R.Precise key) :
    R.along key .descending (.timestamp s) (.timestamp u) = u.order s := by
  rw [along, Direction.orient, precise]
  exact Std.OrientedCmp.eq_swap.symm

theorem closes_iff (precise : R.Precise key) (ha : a.value key = .timestamp s) :
    R.Closes look key d a ↔ (a.value key).Final look d := by
  refine imp_congr_right fun _ => ?_
  rw [ha]
  cases d with
  | ascending => simp [precise.along_ascending, Timestamp.order_wholeSecond_right]
  | descending => simp [precise.along_descending, Timestamp.order_wholeSecond_left]

/-- **Pages are told apart iff they end at separable timestamps.** -/
theorem separates_iff (precise : R.Precise key) (ha : a.value key = .timestamp s)
    (hb : b.value key = .timestamp u) (hab : R.Ahead key d a b) :
    R.Separates look key d a b ↔ (a.value key).Separable look d (b.value key) := by
  have hfields : R.Separates look key d a b ↔ _ ∧ _ ∧ _ ∧ _ :=
    ⟨fun h => ⟨h.leaves, h.arrives, h.closes, h.finds⟩, fun h => ⟨h.1, h.2.1, h.2.2.1, h.2.2.2⟩⟩
  rw [hfields, precise.closes_iff ha, Value.Final, ha, hb]
  rw [Ahead, ha, hb] at hab
  cases d with
  | ascending =>
    rw [precise.along_ascending] at hab
    have hfinds : s.wholeSecond.order u = .lt :=
      Std.TransCmp.lt_of_isLE_of_lt s.order_wholeSecond_left hab
    cases look <;>
      simp [precise.along_ascending, Timestamp.order_wholeSecond_eq_lt_iff hab,
        u.order_wholeSecond_left, hfinds, Value.Separable, and_comm]
  | descending =>
    rw [precise.along_descending] at hab
    have hleaves : u.wholeSecond.order s = .lt :=
      Std.TransCmp.lt_of_isLE_of_lt u.order_wholeSecond_left hab
    have hfinds := (Timestamp.order_wholeSecond_eq_lt_iff hab).trans ne_comm
    cases look <;>
      simp [precise.along_descending, Timestamp.order_wholeSecond_right, hleaves, hfinds,
        Value.Separable]

theorem separated_iff (precise : R.Precise key) {limit : Nat}
    (stamped : ∀ row ∈ rows, ∃ s, row.value key = .timestamp s)
    (sorted : rows.Pairwise (R.Ahead key d)) :
    R.Separated look key d limit rows ↔
      (∀ i a b, limit ∣ i + 1 → rows[i]? = some a → rows[i + 1]? = some b →
        (a.value key).Separable look d (b.value key)) ∧
      ∀ a, rows.getLast? = some a → (a.value key).Final look d := by
  have hbetween {i : Nat} {a b : Row} (ha : rows[i]? = some a) (hb : rows[i + 1]? = some b) :
      R.Separates look key d a b ↔ (a.value key).Separable look d (b.value key) := by
    obtain ⟨s, hs⟩ := stamped a (List.mem_of_getElem? ha)
    obtain ⟨u, hu⟩ := stamped b (List.mem_of_getElem? hb)
    obtain ⟨hi, rfl⟩ := List.getElem?_eq_some_iff.1 ha
    obtain ⟨hi', rfl⟩ := List.getElem?_eq_some_iff.1 hb
    exact precise.separates_iff hs hu
      (List.pairwise_iff_getElem.1 sorted i (i + 1) hi hi' (Nat.lt_succ_self i))
  have hlast {a : Row} (ha : rows.getLast? = some a) :
      R.Closes look key d a ↔ (a.value key).Final look d := by
    obtain ⟨s, hs⟩ := stamped a (List.mem_of_getLast? ha)
    exact precise.closes_iff hs
  constructor
  · rintro ⟨hb, hl⟩
    exact ⟨fun i a b hi ha hb' => (hbetween ha hb').1 (hb i a b hi ha hb'),
      fun a ha => (hlast ha).1 (hl a ha)⟩
  · rintro ⟨hb, hl⟩
    exact ⟨fun i a b hi ha hb' => (hbetween ha hb').2 (hb i a b hi ha hb'),
      fun a ha => (hlast ha).2 (hl a ha)⟩

end Precise

/-- The reading that tells timestamps apart, and nothing else; raw text is unknown. -/
def ofTimestamps : Reading where
  cmp _ v w := v.toTimestamp.order w.toTimestamp
  raw _ _ := .unknown
  lawful _ := { eq_swap := Std.OrientedCmp.eq_swap, isLE_trans := Std.TransCmp.isLE_trans }

theorem precise_ofTimestamps (column : String) : ofTimestamps.Precise column := fun _ _ => rfl

end Reading

namespace Host

variable {σ : Type}

/-- **A walk along timestamps is exact iff its pages end at separable ones.**  The walk ends and
returns each row in its window once, in order, iff a page may end where each page does, and the walk
may end with its last row.  The store compares timestamps to the nanosecond; a cursor is cut to its
second. -/
theorem walk_exact_iff_separable (R : Reading) (h : Host σ) (t : Table) (r : PageRequest)
    (precise : R.Precise (t.keyOf r)) (rows : List Row) (stamped : Row.Stamped (t.keyOf r) rows)
    (distinct : rows.Pairwise fun a b => a.value (t.keyOf r) ≠ b.value (t.keyOf r))
    (small : rows.length ≤ Piece.maxCount)
    (serves : h.Serves t.name (t.Asks r) (fun _ => rows) R.Answers)
    (limit : 1 ≤ (t.limitOf r).toNat) (inOrder : List Row)
    (perm : inOrder.Perm (rows.filter (R.inWindow t r)))
    (sorted : inOrder.Pairwise (R.Ahead (t.keyOf r) r.direction)) (x : Session σ) :
    (∃ calls pages, (h.run (t.walk calls r) x).1 = .ok pages ∧
      (∃ page, pages.getLast? = some page ∧ page.next = none) ∧
      pages.flatMap (·.rows) = inOrder.map (Row.project (Walk.withKey (t.keyOf r) r.columns))) ↔
    (∀ i a b, (t.limitOf r).toNat ∣ i + 1 → inOrder[i]? = some a → inOrder[i + 1]? = some b →
      (a.value (t.keyOf r)).Separable t.settings.lookahead r.direction (b.value (t.keyOf r))) ∧
    ∀ a, inOrder.getLast? = some a →
      (a.value (t.keyOf r)).Final t.settings.lookahead r.direction := by
  have floored := precise.floored stamped distinct
  obtain rfl := Reading.visited_eq_of_perm floored.distinct perm sorted
  refine (exists_exact_iff serves floored small limit x).trans (precise.separated_iff ?_ sorted)
  intro row hrow
  obtain ⟨s, hs⟩ := stamped row (Reading.mem_visited.1 hrow).1
  exact ⟨s, Row.value_of_get? hs⟩

/-- The first one of three timestamps is within a second, and the walk from the last one to it is
exact. -/
theorem walk_exact_iff_separable_three :
    let t : Table := ⟨"things", {}, by decide⟩
    let r : PageRequest := { limit := some 1 }
    let thing (s : Timestamp) : Row := [("id", .timestamp s)]
    let rows := [.inMinute 5 0, .inMinute 7 250000000, .inMinute 6 0].map thing
    let inOrder := [.inMinute 7 250000000, .inMinute 6 0, .inMinute 5 0].map thing
    let h := Reading.ofTimestamps.host (fun _ : Unit => rows) id
    ∃ calls pages, (h.run (t.walk calls r) { store := () }).1 = .ok pages ∧
      (∃ page, pages.getLast? = some page ∧ page.next = none) ∧
      pages.flatMap (·.rows) = inOrder := by
  intro t r thing rows inOrder h
  have stamped : Row.Stamped "id" rows := by
    intro row hrow
    obtain ⟨s, -, rfl⟩ := List.mem_map.1 hrow
    exact ⟨s, rfl⟩
  have hiff := walk_exact_iff_separable Reading.ofTimestamps h t r
    (Reading.precise_ofTimestamps _) rows stamped (by decide +kernel) (by decide)
    (Reading.serves_host _ _ _ _ _) (by decide) inOrder (by decide +kernel) (by decide +kernel)
    { store := () }
  refine hiff.2 ⟨?_, ?_⟩
  · intro i a b _ ha hb
    match i with
    | 0 | 1 =>
      cases ha
      cases hb
      exact ⟨by decide +kernel, by decide +kernel⟩
    | i + 2 => cases hb
  · intro a _ _ hascending
    cases hascending

/-- Of two timestamps within one second, on pages of one row, the earlier one is left out. -/
theorem walk_skips_row :
    let t : Table := ⟨"things", {}, by decide⟩
    let r : PageRequest := { limit := some 1 }
    let thing (s : Timestamp) : Row := [("id", .timestamp s)]
    let rows := [.inMinute 5 250000000, .inMinute 5 750000000].map thing
    let h := Reading.ofTimestamps.host (fun _ : Unit => rows) id
    Reading.ofTimestamps.Precise "id" ∧ Row.Stamped "id" rows ∧
      (rows.Pairwise fun a b => a.value "id" ≠ b.value "id") ∧
      h.Serves t.name (t.Asks r) (fun _ => rows) Reading.ofTimestamps.Answers ∧
      ∀ calls, (h.run (t.walk (calls + 1) r) { store := () }).1 =
        .ok [⟨[thing (.inMinute 5 750000000)], none⟩] := by
  intro t r thing rows h
  have precise := Reading.precise_ofTimestamps "id"
  have stamped : Row.Stamped "id" rows := by
    intro row hrow
    obtain ⟨s, -, rfl⟩ := List.mem_map.1 hrow
    exact ⟨s, rfl⟩
  have distinct : rows.Pairwise fun a b => a.value "id" ≠ b.value "id" := by decide +kernel
  have serves : h.Serves t.name (t.Asks r) (fun _ => rows) Reading.ofTimestamps.Answers :=
    Reading.serves_host _ _ _ _ _
  have floored : Reading.ofTimestamps.Floored (t.keyOf r) rows := precise.floored stamped distinct
  refine ⟨precise, stamped, distinct, serves, fun calls => ?_⟩
  have hvisited : Reading.ofTimestamps.visited t r rows =
      [thing (.inMinute 5 750000000), thing (.inMinute 5 250000000)] :=
    Reading.visited_eq_of_perm floored.distinct (by decide +kernel) (by decide +kernel)
  -- both timestamps are past the beginning of their second, so none is found before it
  have hbeyond : Reading.ofTimestamps.beyond t r
      (.timestamp (Timestamp.inMinute 5 750000000).wholeSecond) rows = [] := by
    rw [Reading.beyond, show r.startingAt none = r from rfl, hvisited]
    decide +kernel
  have hnext : (Reading.ofTimestamps.restingPageOf t r rows).next = none := by
    rw [Reading.next_of_probe rfl, hvisited]
    exact congrArg (fun past : List Row => past.head?.map fun row => Cursor.ofKey (row.value "id"))
      hbeyond
  rw [run_walk_pagesOf serves floored (by decide), Reading.pagesOf_of_next_eq_none hnext]
  have hpage : Reading.ofTimestamps.restingPageOf t r rows =
      ⟨(Reading.ofTimestamps.restingPageOf t r rows).rows, none⟩ :=
    congrArg (Page.mk _) hnext
  rw [hpage, Reading.rows_restingPageOf, hvisited]
  rfl

/-- **A walk that may not end with its last row never ends**: each of its pages has a cursor,
however many calls there are. -/
theorem walk_never_ends (R : Reading) (h : Host σ) (t : Table) (r : PageRequest)
    (precise : R.Precise (t.keyOf r)) (rows : List Row) (stamped : Row.Stamped (t.keyOf r) rows)
    (distinct : rows.Pairwise fun a b => a.value (t.keyOf r) ≠ b.value (t.keyOf r))
    (small : rows.length ≤ Piece.maxCount)
    (serves : h.Serves t.name (t.Asks r) (fun _ => rows) R.Answers)
    (limit : 1 ≤ (t.limitOf r).toNat) (inOrder : List Row)
    (perm : inOrder.Perm (rows.filter (R.inWindow t r)))
    (sorted : inOrder.Pairwise (R.Ahead (t.keyOf r) r.direction)) (last : Row)
    (hlast : inOrder.getLast? = some last)
    (within : ¬ (last.value (t.keyOf r)).Final t.settings.lookahead r.direction) (calls : Nat)
    (x : Session σ) :
    ∃ pages, (h.run (t.walk calls r) x).1 = .ok pages ∧ pages.length = calls ∧
      ∀ page ∈ pages, page.next.isSome = true := by
  have floored := precise.floored stamped distinct
  obtain rfl := Reading.visited_eq_of_perm floored.distinct perm sorted
  obtain ⟨s, hs⟩ := stamped last (Reading.mem_visited.1 (List.mem_of_getLast? hlast)).1
  rw [← precise.closes_iff (Row.value_of_get? hs)] at within
  exact ⟨_, run_walk_pagesOf serves floored small calls x,
    Reading.pagesOf_of_not_closes floored limit hlast within calls⟩

end Host

end Keyset
