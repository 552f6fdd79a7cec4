import Keyset.Proofs.Walk.Call

/-!
# The walk over a table at rest

A table that does not change is walked to its end: the calls divide the rows in the window of the
request, in the order of the walk, into pages of the asked size.  `Page.Divides` is this division.

* `Reading.visited_startingAt` : a walk that resumes at one of its rows visits what is left from
  there on.
* `Host.run_walk_of_divides` : the pages of the calls are the division of the rows in the window.
* `Host.walk_visits_window` : **the walk ends, after as many calls as it takes, and visits each row
  in the window once, in order.**
-/

namespace Keyset

namespace Page

/-- The pages divide the rows: every page but the last one is full, and its cursor stands at the
first row of the page after it. -/
inductive Divides (limit : Nat) (key : String) (columns : List (String × Bool)) :
    List Row → List Page → Prop
  /-- The last page has no cursor. -/
  | last {rows : List Row} (h : rows.length ≤ limit) :
    Divides limit key columns rows [⟨rows.map (Row.project columns), none⟩]
  /-- A full page before the pages of the rows that it left over. -/
  | full {shown rest : List Row} {row : Row} {pages : List Page} (h : shown.length = limit)
    (hrest : Divides limit key columns (row :: rest) pages) :
    Divides limit key columns (shown ++ row :: rest)
      (⟨shown.map (Row.project columns), some (.ofKey (row.value key))⟩ :: pages)

variable {limit : Nat} {key : String} {columns : List (String × Bool)}

theorem exists_divides (key : String) (columns : List (String × Bool)) (h0 : 1 ≤ limit)
    (rows : List Row) : ∃ pages, Divides limit key columns rows pages := by
  induction hn : rows.length using Nat.strongRecOn generalizing rows with
  | ind n ih =>
    rcases Nat.lt_or_ge limit rows.length with hlt | hle
    · cases hd : rows.drop limit with
      | nil => rw [List.drop_eq_nil_iff] at hd; omega
      | cons row rest =>
        have hlen : (row :: rest).length < n := by
          rw [← hd, List.length_drop]; omega
        obtain ⟨pages, hpages⟩ := ih _ hlen (row :: rest) rfl
        rw [← List.take_append_drop limit rows, hd]
        exact ⟨_, .full (List.length_take_of_le hlt.le) hpages⟩
    · exact ⟨_, .last hle⟩

namespace Divides

variable {rows : List Row} {pages : List Page}

theorem length_eq (h0 : 1 ≤ limit) (h : Divides limit key columns rows pages) :
    pages.length = max 1 ((rows.length + limit - 1) / limit) := by
  have hpos : 0 < limit := h0
  induction h with
  | @last rows hle =>
    have hone : (rows.length + limit - 1) / limit < 2 := Nat.div_lt_of_lt_mul (by omega)
    rw [Nat.max_eq_left (Nat.le_of_lt_succ hone), List.length_singleton]
  | @full shown rest row pages hlen hrest ih =>
    have hall : (shown ++ row :: rest).length + limit - 1 = rest.length + limit + limit := by
      simp only [List.length_append, List.length_cons, hlen]
      omega
    have hleft : (row :: rest).length + limit - 1 = rest.length + limit := by
      simp only [List.length_cons]
      omega
    rw [List.length_cons, ih, hall, hleft, Nat.add_div_right rest.length hpos,
      Nat.add_div_right (rest.length + limit) hpos, Nat.add_div_right rest.length hpos]
    rw [Nat.max_eq_right (Nat.le_add_left 1 _), Nat.max_eq_right (Nat.le_add_left 1 _)]

theorem flatMap_rows (h : Divides limit key columns rows pages) :
    pages.flatMap (·.rows) = rows.map (Row.project columns) := by
  induction h with
  | last hle => simp
  | full hlen hrest ih => simp [ih]

theorem length_rows_le (h : Divides limit key columns rows pages) {page : Page}
    (hp : page ∈ pages) : page.rows.length ≤ limit := by
  induction h with
  | last hle =>
    rw [List.mem_singleton.1 hp, List.length_map]
    exact hle
  | full hlen hrest ih =>
    rcases List.mem_cons.1 hp with rfl | hp
    · rw [List.length_map, hlen]
    · exact ih hp

theorem ne_nil (h : Divides limit key columns rows pages) : pages ≠ [] := by
  cases h <;> exact List.cons_ne_nil _ _

theorem full_of_mem_dropLast (h : Divides limit key columns rows pages) {page : Page}
    (hp : page ∈ pages.dropLast) : page.rows.length = limit ∧ page.next.isSome = true := by
  induction h with
  | last hle => simp at hp
  | full hlen hrest ih =>
    rw [List.dropLast_cons_of_ne_nil hrest.ne_nil] at hp
    rcases List.mem_cons.1 hp with rfl | hp
    · exact ⟨by rw [List.length_map, hlen], rfl⟩
    · exact ih hp

theorem next_getLast (h : Divides limit key columns rows pages) :
    ∃ page, pages.getLast? = some page ∧ page.next = none := by
  induction h with
  | last hle => exact ⟨_, rfl, rfl⟩
  | full hlen hrest ih =>
    obtain ⟨page, hlast, hnext⟩ := ih
    exact ⟨page, by rw [List.getLast?_cons, hlast]; rfl, hnext⟩

end Divides

end Page

namespace Reading

variable {R : Reading} {t : Table} {r : PageRequest} {rows : List Row}

/-- **Resuming at a row that the walk visits leaves out the rows before it.** -/
theorem visited_startingAt (keyed : R.Keyed (t.keyOf r) rows) {shown rest : List Row} {row : Row}
    (hv : R.visited t r rows = shown ++ row :: rest) :
    R.visited t (r.startingAt (some (.ofKey (row.value (t.keyOf r))))) rows = row :: rest := by
  have hsorted := keyed.pairwise_visited
  rw [hv, List.pairwise_append, List.pairwise_cons] at hsorted
  obtain ⟨-, ⟨hafter, htail⟩, hbefore⟩ := hsorted
  have hmem {other : Row} (ho : other ∈ row :: rest) : other ∈ R.visited t r rows :=
    hv ▸ List.mem_append_right shown ho
  obtain ⟨hrow, hwin⟩ := mem_visited.1 (hmem List.mem_cons_self)
  have hreach {other : Row} (ho : other ∈ rows) :
      R.reaches (t.keyOf r) r.direction (other.value (t.keyOf r))
          (Cursor.ofKey (row.value (t.keyOf r))).value = true ↔
        (R.along (t.keyOf r) r.direction (row.value (t.keyOf r))
          (other.value (t.keyOf r))).isLE = true := by
    rw [keyed.value_ofKey hrow, reaches_iff (keyed.isNull ho), Std.OrientedCmp.isGE_iff_isLE]
    exact and_iff_right (keyed.isWrittenNull hrow)
  refine eq_of_pairwise_ahead (Keyed.pairwise_visited keyed)
    (List.pairwise_cons.2 ⟨hafter, htail⟩) fun other => ?_
  rw [mem_visited, inWindow_iff]
  simp only [PageRequest.since_startingAt, PageRequest.startingAt_startingAt, Option.some.injEq,
    forall_eq', PageRequest.direction_startingAt, Table.keyOf_startingAt]
  constructor
  · rintro ⟨ho, hw, hr⟩
    have hle := (hreach ho).1 hr
    have hin : other ∈ R.visited t r rows :=
      mem_visited.2 ⟨ho, inWindow_iff.2 ⟨hw, fun c hc =>
        reaches_of_isLE (keyed.isNull hrow) (keyed.isNull ho) ((inWindow_iff.1 hwin).2 c hc) hle⟩⟩
    rw [hv, List.mem_append] at hin
    rcases hin with hs | hin
    · -- a row that the page has shown comes strictly before the resume point
      exact absurd hle (hbefore other hs row List.mem_cons_self).not_isLE
    · exact hin
  · intro hin
    obtain ⟨ho, hw⟩ := mem_visited.1 (hmem hin)
    refine ⟨ho, (inWindow_iff.1 hw).1, (hreach ho).2 ?_⟩
    rcases List.mem_cons.1 hin with rfl | hin
    · exact Std.ReflCmp.isLE_rfl
    · exact (hafter other hin).isLE

end Reading

namespace Host

variable {σ : Type} {R : Reading} {h : Host σ} {t : Table} {rows : List Row}

/-- **The pages of a walk are the division of the rows in its window**, as many of them as there
were calls for. -/
theorem run_walk_of_divides {r : PageRequest}
    (serves : h.Serves t.name (t.Asks r) (fun _ => rows) R.Answers)
    (keyed : R.Keyed (t.keyOf r) rows) (small : rows.length ≤ Piece.maxCount)
    {pages : List Page} (hd : Page.Divides (t.limitOf r).toNat (t.keyOf r) (t.stretch r).columns
      (R.visited t r rows) pages) (h0 : 1 ≤ (t.limitOf r).toNat) (calls : Nat) (x : Session σ) :
    (h.run (t.walk calls r) x).1 = .ok (pages.take calls) := by
  -- the induction is on the division; the request changes from call to call, but of all that the
  -- pages depend on only the resume point does
  generalize hv : R.visited t r rows = vs at hd
  generalize hl : (t.limitOf r).toNat = limit at hd h0
  generalize hk : t.keyOf r = key at hd
  generalize hc : (t.stretch r).columns = columns at hd
  induction hd generalizing r calls x with
  | @last vs hle =>
    cases calls with
    | zero => rfl
    | succ calls =>
      obtain ⟨z, y, hpage, -⟩ := run_page serves (fun _ => keyed) (fun _ => small) x
      rw [Reading.pageOf_self keyed, hv, hl, hc, List.take_of_length_le hle,
        List.drop_eq_nil_of_le hle, if_neg (Nat.ne_of_gt h0)] at hpage
      rw [run_walk_last hpage rfl, List.take_succ_cons, List.take_nil]
      rfl
  | @full shown rest row pages hlen hrest ih =>
    cases calls with
    | zero => rfl
    | succ calls =>
      obtain ⟨z, y, hpage, -⟩ := run_page serves (fun _ => keyed) (fun _ => small) x
      rw [Reading.pageOf_self keyed, hv, hl, hk, hc, List.take_left' hlen, List.drop_left' hlen,
        if_neg (Nat.ne_of_gt h0)] at hpage
      -- the next call resumes at the row after the page, and its walk visits what is left
      have hleft := Reading.visited_startingAt keyed hv
      rw [hk] at hleft
      have hwalk := ih (r := r.startingAt (some (.ofKey (row.value key)))) serves keyed calls y
        hleft hl hk hc
      rw [run_walk_next hpage rfl (Prod.ext hwalk rfl), List.take_succ_cons]
      rfl

/-- **The walk over a table at rest ends and visits each row in its window once.**  It takes one
call for every page that is begun, and one if there is no row at all; its pages hold the rows in the
order of the walk, every page but the last one is full, and the cursor of the last one is absent. -/
theorem walk_visits_window (R : Reading) (h : Host σ) (t : Table) (r : PageRequest)
    (rows : List Row) (keyed : R.Keyed (t.keyOf r) rows) (small : rows.length ≤ Piece.maxCount)
    (serves : h.Serves t.name (t.Asks r) (fun _ => rows) R.Answers)
    (limit : 1 ≤ (t.limitOf r).toNat) (x : Session σ) :
    ∃ (pages : List Page) (inOrder : List Row),
      inOrder.Perm (rows.filter (R.inWindow t r)) ∧
      inOrder.Pairwise (R.Ahead (t.keyOf r) r.direction) ∧
      (∀ calls, (h.run (t.walk calls r) x).1 = .ok (pages.take calls)) ∧
      pages.length =
        max 1 ((inOrder.length + (t.limitOf r).toNat - 1) / (t.limitOf r).toNat) ∧
      pages.flatMap (·.rows) = inOrder.map (Row.project (Walk.withKey (t.keyOf r) r.columns)) ∧
      (∀ page ∈ pages, page.rows.length ≤ (t.limitOf r).toNat) ∧
      (∀ page ∈ pages.dropLast,
        page.rows.length = (t.limitOf r).toNat ∧ page.next.isSome = true) ∧
      ∃ page, pages.getLast? = some page ∧ page.next = none := by
  obtain ⟨pages, hd⟩ := Page.exists_divides (t.keyOf r) (t.stretch r).columns limit
    (R.visited t r rows)
  refine ⟨pages, R.visited t r rows, List.mergeSort_perm _ _, keyed.pairwise_visited, ?_,
    hd.length_eq limit, hd.flatMap_rows, fun _ => hd.length_rows_le,
    fun _ => hd.full_of_mem_dropLast, hd.next_getLast⟩
  intro calls
  exact run_walk_of_divides serves keyed small hd limit calls x

/-- Three rows on pages of two take two calls. -/
theorem walk_visits_window_three :
    let t : Table := ⟨"things", {}, by decide⟩
    let r : PageRequest := { limit := some 2 }
    let rows : List Row := [3, 1, 2].map fun n => [("id", .integer n)]
    let h := Reading.ofIntegers.host (fun _ : Unit => rows) id
    ∃ pages : List Page, pages.length = 2 ∧
      ∀ calls, (h.run (t.walk calls r) { store := () }).1 = .ok (pages.take calls) := by
  intro t r rows h
  obtain ⟨pages, inOrder, hperm, -, hrun, hlen, -⟩ :=
    walk_visits_window Reading.ofIntegers h t r rows (by decide +kernel) (by decide)
      (Reading.serves_host _ _ _ _ _) (by decide) { store := () }
  refine ⟨pages, ?_, hrun⟩
  rw [hlen, hperm.length_eq]
  decide +kernel

end Host

end Keyset
