import Keyset.Proofs.Walk.Complete

/-!
# The two lookaheads

A page finds out whether rows follow it by a second query, or by asking for one row more.  The two
ways differ in the statements that they ask for, and in the counts of these: one more row than the
largest count is no count, and counts are written no larger than a signed integer.

* `Host.Serves.of_asWritten` : a host that reads the counts as they are written answers the same.
* `Host.lookaheads_agree` : **on a table at rest the two ways give the same page**, and its cursor
  is the key with which the next page begins.
-/

namespace Keyset

/-- The table with another way to look ahead. -/
def Table.withLookahead (t : Table) (look : Lookahead) : Table :=
  { t with settings := { t.settings with lookahead := look } }

namespace Reading

variable {R : Reading} {t : Table} {r : PageRequest} {rows later : List Row}

theorem pageOf_withLookahead (look : Lookahead) :
    R.pageOf (t.withLookahead look) r rows later = R.pageOf t r rows later := rfl

theorem isSome_next_iff (keyed : R.Keyed (t.keyOf r) rows) (h0 : 1 ≤ (t.limitOf r).toNat) :
    (R.pageOf t r rows rows).next.isSome = true ↔ ∃ row ∈ rows, R.inWindow t r row = true ∧
      ∀ shown ∈ (R.pageOf t r rows rows).rows, R.Ahead (t.keyOf r) r.direction shown row := by
  have hsorted : (R.visited t r rows).Pairwise (R.Ahead (t.keyOf r) r.direction) :=
    keyed.pairwise_visited
  have hmem {row : Row} : row ∈ R.visited t r rows ↔ row ∈ rows ∧ R.inWindow t r row = true :=
    mem_visited
  have hproject (shown row : Row) :
      R.Ahead (t.keyOf r) r.direction (shown.project (t.stretch r).columns) row ↔
        R.Ahead (t.keyOf r) r.direction shown row := by
    rw [Ahead, Ahead, t.value_project_stretch]
  rw [pageOf_self keyed, if_neg (Nat.ne_of_gt h0), Option.isSome_map, List.isSome_head?]
  simp only [List.forall_mem_map, hproject]
  -- the rows in the window are those on the page and those past it
  rw [← List.take_append_drop (t.limitOf r).toNat (R.visited t r rows)] at hsorted hmem
  obtain ⟨-, -, hpast⟩ := List.pairwise_append.1 hsorted
  constructor
  · intro hne
    obtain ⟨row, hrow⟩ := List.exists_mem_of_ne_nil _ hne
    obtain ⟨hr, hw⟩ := hmem.1 (List.mem_append_right _ hrow)
    exact ⟨row, hr, hw, fun shown hs => hpast shown hs row hrow⟩
  · rintro ⟨row, hr, hw, hahead⟩
    rcases List.mem_append.1 (hmem.2 ⟨hr, hw⟩) with hs | hs
    · exact absurd (hahead row hs) (Ahead.irrefl row)
    · exact List.ne_nil_of_mem hs

/-- **The cursor of a page is the key with which the page that resumes from it begins.** -/
theorem head_pageOf_startingAt (keyed : R.Keyed (t.keyOf r) rows) (h0 : 1 ≤ (t.limitOf r).toNat)
    {c : Cursor} (hc : (R.pageOf t r rows rows).next = some c) :
    ∃ row, (R.pageOf t (r.startingAt (some c)) rows rows).rows.head? = some row ∧
      row.get? (t.keyOf r) = some c.value := by
  rw [pageOf_self keyed, if_neg (Nat.ne_of_gt h0)] at hc
  obtain ⟨row, hrow, rfl⟩ := Option.map_eq_some_iff.1 hc
  obtain ⟨rest, hdrop⟩ := List.head?_eq_some_iff.1 hrow
  have hmem : row ∈ rows :=
    (mem_visited.1 (List.mem_of_mem_drop (hdrop ▸ List.mem_cons_self))).1
  have hvisited := visited_startingAt keyed
    ((List.take_append_drop (t.limitOf r).toNat (R.visited t r rows)).symm.trans
      (congrArg _ hdrop))
  refine ⟨row.project (t.stretch r).columns, ?_, ?_⟩
  · obtain ⟨n, hn⟩ : ∃ n, (t.limitOf r).toNat = n + 1 := ⟨_, (Nat.sub_add_cancel h0).symm⟩
    rw [rows_pageOf, hvisited, Table.limitOf_startingAt, hn, List.take_succ_cons]
    rfl
  · rw [t.get?_project_stretch, keyed.get? hmem, keyed.value_ofKey hmem]

end Reading

namespace Host

variable {σ : Type}

theorem Serves.of_asWritten {R : Reading} {h : Host σ} {name : String} {asked : Query → Prop}
    {rows : List Row} (small : rows.length ≤ Piece.maxCount)
    (serves : h.Serves name asked (fun _ => rows) fun rows q => R.Answers rows q.asWritten) :
    h.Serves name asked (fun _ => rows) R.Answers := by
  intro q s hq
  obtain ⟨answer, hexec, hans⟩ := serves q s hq
  exact ⟨answer, hexec, (Reading.answers_asWritten_iff small).1 hans⟩

/-- **The two lookaheads agree.**  Both give the same page for every request.  It has a cursor iff
some row in the window lies past it, and the cursor is the key of the first row of the page that
resumes from it.  A page of no rows has no cursor. -/
theorem lookaheads_agree (R : Reading) (h : Host σ) (t : Table) (r : PageRequest)
    (rows : List Row) (keyed : R.Keyed (t.keyOf r) rows) (small : rows.length < Piece.maxCount)
    (serves : h.Serves t.name (t.Asks r) (fun _ => rows) fun rows q =>
      R.Answers rows q.asWritten) :
    ∃ page : Page,
      (∀ look x, (h.run ((t.withLookahead look).page r) x).1 = .ok page) ∧
      ((t.limitOf r).toNat = 0 → page = ⟨[], none⟩) ∧
      (1 ≤ (t.limitOf r).toNat → (page.next.isSome = true ↔
        ∃ row ∈ rows, R.inWindow t r row = true ∧
          ∀ shown ∈ page.rows, R.Ahead (t.keyOf r) r.direction shown row)) ∧
      ∀ c, page.next = some c → ∃ following row,
        (∀ look x,
          (h.run ((t.withLookahead look).page (r.startingAt (some c))) x).1 = .ok following) ∧
        following.rows.head? = some row ∧ row.get? (t.keyOf r) = some c.value := by
  have hrun (since : Option Cursor) (look : Lookahead) (x : Session σ) :
      (h.run ((t.withLookahead look).page (r.startingAt since)) x).1 =
        .ok (R.pageOf t (r.startingAt since) rows rows) := by
    obtain ⟨z, y, hpage, -⟩ := run_page (t := t.withLookahead look) (r := r.startingAt since)
      (serves.of_asWritten small.le) (fun _ => keyed) (fun _ => small.le) x
    rw [hpage, Reading.pageOf_withLookahead]
  have hzero (h0 : (t.limitOf r).toNat = 0) : R.pageOf t r rows rows = ⟨[], none⟩ := by
    rw [Reading.pageOf_self keyed, if_pos h0, h0]
    rfl
  refine ⟨R.pageOf t r rows rows, hrun r.since, hzero, Reading.isSome_next_iff keyed, ?_⟩
  intro c hc
  have h0 : 1 ≤ (t.limitOf r).toNat := by
    rw [Nat.one_le_iff_ne_zero]
    intro h0
    rw [hzero h0] at hc
    cases hc
  obtain ⟨row, hrow, hkey⟩ := Reading.head_pageOf_startingAt keyed h0 hc
  exact ⟨_, row, hrun (some c), hrow, hkey⟩

/-- Pages of the largest size. -/
theorem lookaheads_agree_three :
    let t : Table := ⟨"things", {}, by decide⟩
    let r : PageRequest := { limit := some 18446744073709551615 }
    let rows : List Row := [3, 1, 2].map fun n => [("id", .integer n)]
    let h := Reading.ofIntegers.host (fun _ : Unit => rows) id
    ∃ page : Page, (∀ look x, (h.run ((t.withLookahead look).page r) x).1 = .ok page) ∧
      (page.next.isSome = true ↔ ∃ row ∈ rows, Reading.ofIntegers.inWindow t r row = true ∧
        ∀ shown ∈ page.rows, Reading.ofIntegers.Ahead "id" r.direction shown row) := by
  intro t r rows h
  have small : rows.length < Piece.maxCount := by decide
  have serves : h.Serves t.name (t.Asks r) (fun _ => rows)
      fun rows q => Reading.ofIntegers.Answers rows q.asWritten := by
    intro q _ _
    exact ⟨_, rfl, (Reading.answers_asWritten_iff small.le).2 (Reading.answers_answer _ rows q)⟩
  obtain ⟨page, hrun, -, hnext, -⟩ :=
    lookaheads_agree Reading.ofIntegers h t r rows (by decide +kernel) small serves
  exact ⟨page, hrun, hnext (by decide)⟩

end Host

end Keyset
