import Keyset.Proofs.Walk.Call

/-!
# The walk over a table that others write to

Between any two statements of a walk other clients may insert, delete and update rows, also between
the two queries of one call.  The host of such a walk counts the statements: `Write.contents` is the
table at the moment of each of them.

A call is described by the keys of its page alone.  The cursor of a page lies strictly past the keys
on the page (`Reading.lt_next`), and on or before every key that the page left out and that is there
at both moments of the call (`Reading.mem_keys_or_next_le`).  From these two facts:

* `Host.run_walk_sweeps` : what a walk keeps from call to call, which is `Reading.Sweeps`.
* `Host.walk_stable_under_writes` : **no key is returned twice, and a key that stays in the window
  until the walk ends is returned once.**
-/

namespace Keyset

/-! ### Writes -/

/-- A write of another client. -/
inductive Write
  /-- Adds a row. -/
  | insert (row : Row)
  /-- Removes rows. -/
  | delete (p : Row → Bool)
  /-- Changes rows. -/
  | update (p : Row → Bool) (f : Row → Row)

namespace Write

/-- The table after a write. -/
def apply (rows : List Row) : Write → List Row
  | insert row => rows ++ [row]
  | delete p => rows.filter fun row => !p row
  | update p f => rows.map fun row => if p row then f row else row

/-- The table at each moment.  The writes of a moment come between it and the next one. -/
def contents (start : List Row) (writes : ℕ → List Write) : ℕ → List Row
  | 0 => start
  | m + 1 => (writes m).foldl apply (contents start writes m)

end Write

namespace Page

/-- The keys of the rows on a page. -/
def keys (key : String) (page : Page) : List Value := page.rows.map (·.value key)

/-- The keys that the pages of a walk return. -/
def returned (key : String) (pages : List Page) : List Value := pages.flatMap (keys key)

theorem returned_cons (key : String) (page : Page) (pages : List Page) :
    returned key (page :: pages) = page.keys key ++ returned key pages := rfl

theorem returned_singleton (key : String) (page : Page) : returned key [page] = page.keys key :=
  List.append_nil _

end Page

namespace Reading

/-! ### The keys of one call -/

section

variable (R : Reading)

/-- A row in the window of a request has the key. -/
def Contains (t : Table) (r : PageRequest) (rows : List Row) (k : Value) : Prop :=
  ∃ row ∈ rows, R.inWindow t r row = true ∧ row.value (t.keyOf r) = k

end

variable {R : Reading} {t : Table} {r : PageRequest} {rows later : List Row} {k : Value}
  {c : Cursor}

theorem Contains.startingAt (keys : Row.AllHave (t.keyOf r) rows) (h : R.Contains t r rows k)
    (hc : c.value.isWrittenNull = false)
    (hle : (R.along (t.keyOf r) r.direction c.value k).isLE = true) :
    R.Contains t (r.startingAt (some c)) rows k := by
  obtain ⟨row, hr, hw, rfl⟩ := h
  refine ⟨row, hr, inWindow_iff.2 ⟨(inWindow_iff.1 hw).1, ?_⟩, rfl⟩
  intro d hd
  obtain rfl : c = d := Option.some.inj hd
  exact (reaches_iff (keys.isNull hr)).2 ⟨hc, Std.OrientedCmp.isGE_of_isLE hle⟩

theorem keys_map_project (shown : List Row) (next : Option Cursor) :
    Page.keys (t.keyOf r) ⟨shown.map (Row.project (t.stretch r).columns), next⟩ =
      shown.map (·.value (t.keyOf r)) := by
  rw [Page.keys, List.map_map]
  exact List.map_congr_left fun row _ => t.value_project_stretch r row

theorem keys_pageOf : (R.pageOf t r rows later).keys (t.keyOf r) =
    ((R.visited t r rows).take (t.limitOf r).toNat).map (·.value (t.keyOf r)) :=
  keys_map_project _ _

theorem mem_keys_pageOf : k ∈ (R.pageOf t r rows later).keys (t.keyOf r) ↔
    ∃ row ∈ (R.visited t r rows).take (t.limitOf r).toNat, row.value (t.keyOf r) = k := by
  rw [keys_pageOf, List.mem_map]

theorem contains_of_mem_keys (h : k ∈ (R.pageOf t r rows later).keys (t.keyOf r)) :
    R.Contains t r rows k := by
  obtain ⟨row, hr, rfl⟩ := mem_keys_pageOf.1 h
  obtain ⟨hrow, hw⟩ := mem_visited.1 (List.mem_of_mem_take hr)
  exact ⟨row, hrow, hw, rfl⟩

theorem pairwise_keys (keyed : R.Keyed (t.keyOf r) rows) :
    ((R.pageOf t r rows later).keys (t.keyOf r)).Pairwise
      fun v w => R.along (t.keyOf r) r.direction v w = .lt := by
  rw [keys_pageOf, List.pairwise_map]
  exact keyed.pairwise_visited.sublist (List.take_sublist _ _)

theorem next_pageOf {last : Row}
    (h : ((R.visited t r rows).take (t.limitOf r).toNat).getLast? = some last) :
    (R.pageOf t r rows later).next =
      (R.beyond t r (last.value (t.keyOf r)) later).head?.map fun row =>
        .ofKey (row.value (t.keyOf r)) := by
  show Option.bind _ _ = _
  rw [h, Option.bind_some]

theorem next_pageOf_eq_some (h : (R.pageOf t r rows later).next = some c) :
    ∃ last row, ((R.visited t r rows).take (t.limitOf r).toNat).getLast? = some last ∧
      (R.beyond t r (last.value (t.keyOf r)) later).head? = some row ∧
      c = .ofKey (row.value (t.keyOf r)) := by
  obtain ⟨last, hlast, h⟩ := Option.bind_eq_some_iff.1 h
  obtain ⟨row, hrow, h⟩ := Option.map_eq_some_iff.1 h
  exact ⟨last, row, hlast, hrow, h.symm⟩

theorem isWrittenNull_next (keyed : R.Keyed (t.keyOf r) later)
    (h : (R.pageOf t r rows later).next = some c) : c.value.isWrittenNull = false := by
  obtain ⟨last, row, -, hrow, rfl⟩ := next_pageOf_eq_some h
  have hmem : row ∈ later := (mem_beyond.1 (List.mem_of_head? hrow)).1
  rw [keyed.value_ofKey hmem]
  exact keyed.isWrittenNull hmem

/-- **The cursor of a page lies strictly past the keys on the page.** -/
theorem lt_next (keyed : R.Keyed (t.keyOf r) rows) (keyed' : R.Keyed (t.keyOf r) later)
    (h : (R.pageOf t r rows later).next = some c)
    (hk : k ∈ (R.pageOf t r rows later).keys (t.keyOf r)) :
    R.along (t.keyOf r) r.direction k c.value = .lt := by
  obtain ⟨last, first, hlast, hfirst, rfl⟩ := next_pageOf_eq_some h
  obtain ⟨hlater, -, hpass⟩ := mem_beyond.1 (List.mem_of_head? hfirst)
  obtain ⟨row, hrow, rfl⟩ := mem_keys_pageOf.1 hk
  have hgt := ((passes_iff (keyed'.isNull hlater)).1 hpass).2
  have hlt : R.along (t.keyOf r) r.direction (last.value (t.keyOf r))
      (first.value (t.keyOf r)) = .lt :=
    Std.OrientedCmp.gt_iff_lt.1 hgt
  rw [keyed'.value_ofKey hlater]
  -- every row of the page is its last one or before it
  obtain ⟨before, htake⟩ := List.getLast?_eq_some_iff.1 hlast
  have hsorted := keyed.pairwise_visited.sublist (List.take_sublist (t.limitOf r).toNat _)
  rw [htake, List.pairwise_append] at hsorted
  rw [htake, List.mem_append, List.mem_singleton] at hrow
  rcases hrow with hb | rfl
  · exact Std.TransCmp.lt_trans (hsorted.2.2 row hb last (List.mem_singleton_self last)) hlt
  · exact hlt

theorem exists_last_of_mem_drop (keyed : R.Keyed (t.keyOf r) rows)
    (h0 : 1 ≤ (t.limitOf r).toNat) {row : Row}
    (hrow : row ∈ (R.visited t r rows).drop (t.limitOf r).toNat) :
    ∃ last, ((R.visited t r rows).take (t.limitOf r).toNat).getLast? = some last ∧
      R.Ahead (t.keyOf r) r.direction last row := by
  obtain ⟨last, hlast⟩ := exists_getLast?_take h0 (List.ne_nil_of_mem (List.mem_of_mem_drop hrow))
  have hsorted := keyed.pairwise_visited (t := t) (r := r)
  rw [← List.take_append_drop (t.limitOf r).toNat (R.visited t r rows)] at hsorted
  obtain ⟨-, -, hahead⟩ := List.pairwise_append.1 hsorted
  exact ⟨last, hlast, hahead last (List.mem_of_getLast? hlast) row hrow⟩

/-- The cursor of a page is not past any row that lies past the page at the later moment. -/
theorem next_le_of_mem_beyond (keyed : R.Keyed (t.keyOf r) later) {last row : Row}
    (hlast : ((R.visited t r rows).take (t.limitOf r).toNat).getLast? = some last)
    (hrow : row ∈ R.beyond t r (last.value (t.keyOf r)) later) :
    ∃ c, (R.pageOf t r rows later).next = some c ∧
      (R.along (t.keyOf r) r.direction c.value (row.value (t.keyOf r))).isLE = true := by
  have horder := keyed.pairwise_beyond (t := t) (r := r) (last.value (t.keyOf r))
  rw [next_pageOf hlast]
  cases hb : R.beyond t r (last.value (t.keyOf r)) later with
  | nil =>
    rw [hb] at hrow
    cases hrow
  | cons first rest =>
    have hfirst : first ∈ later := (mem_beyond.1 (hb ▸ List.mem_cons_self)).1
    rw [hb] at hrow horder
    refine ⟨.ofKey (first.value (t.keyOf r)), rfl, ?_⟩
    rw [keyed.value_ofKey hfirst]
    rcases List.mem_cons.1 hrow with rfl | hrest
    · exact Std.ReflCmp.isLE_rfl
    · exact ((List.pairwise_cons.1 horder).1 row hrest).isLE

/-- **A key that is there at both moments of a call is on its page, or the cursor of the page does
not lie past it.** -/
theorem mem_keys_or_next_le (keyed : R.Keyed (t.keyOf r) rows)
    (keyed' : R.Keyed (t.keyOf r) later) (h0 : 1 ≤ (t.limitOf r).toNat)
    (h : R.Contains t r rows k) (h' : R.Contains t r later k) :
    k ∈ (R.pageOf t r rows later).keys (t.keyOf r) ∨
      ∃ c, (R.pageOf t r rows later).next = some c ∧
        (R.along (t.keyOf r) r.direction c.value k).isLE = true := by
  obtain ⟨row, hrow, hw, hkey⟩ := h
  have hmem : row ∈ R.visited t r rows := mem_visited.2 ⟨hrow, hw⟩
  rw [← List.take_append_drop (t.limitOf r).toNat (R.visited t r rows)] at hmem
  rcases List.mem_append.1 hmem with hshown | hleft
  · exact .inl (mem_keys_pageOf.2 ⟨row, hshown, hkey⟩)
  · obtain ⟨last, hlast, hahead⟩ := exists_last_of_mem_drop keyed h0 hleft
    have hlastrow : last ∈ rows :=
      (mem_visited.1 (List.mem_of_mem_take (List.mem_of_getLast? hlast))).1
    -- the row with this key at the later moment lies past the page, so the cursor cannot pass it
    obtain ⟨row', hrow', hw', rfl⟩ := h'
    have hgt : R.along (t.keyOf r) r.direction (row'.value (t.keyOf r))
        (last.value (t.keyOf r)) = .gt := by
      rw [← hkey]
      exact Std.OrientedCmp.gt_iff_lt.2 hahead
    have hpass := (passes_iff (keyed'.isNull hrow')).2 ⟨keyed.isWrittenNull hlastrow, hgt⟩
    exact .inr (next_le_of_mem_beyond keyed' hlast
      (mem_beyond.2 ⟨hrow', (inWindow_iff.1 hw').1, hpass⟩))

/-! ### The keys of a walk -/

section

variable (R : Reading)

/-- What a walk that ran from one moment to another keeps from call to call. -/
structure Sweeps (t : Table) (r : PageRequest) (rows : ℕ → List Row) (first last : ℕ)
    (pages : List Page) : Prop where
  /-- The keys are in the order of the walk. -/
  sorted : (Page.returned (t.keyOf r) pages).Pairwise fun v w =>
    R.along (t.keyOf r) r.direction v w = .lt
  /-- No key lies before the resume point. -/
  resumes : ∀ c, r.since = some c → ∀ k ∈ Page.returned (t.keyOf r) pages,
    (R.along (t.keyOf r) r.direction c.value k).isLE = true
  /-- If the walk has ended, then the keys that stayed in its window are among its keys. -/
  complete : ∀ page, pages.getLast? = some page → page.next = none → ∀ k,
    (∀ m, first ≤ m → m < last → R.Contains t r (rows m) k) → k ∈ Page.returned (t.keyOf r) pages

end

namespace Sweeps

variable {rows : ℕ → List Row} {m m' last : ℕ}

theorem nil : R.Sweeps t r rows m last [] where
  sorted := .nil
  resumes := by
    intro _ _ _ hk
    cases hk
  complete := by
    intro _ hpage
    cases hpage

theorem isLE_of_mem_keys {rows later : List Row} (keyed : R.Keyed (t.keyOf r) rows)
    (hc : r.since = some c) (hk : k ∈ (R.pageOf t r rows later).keys (t.keyOf r)) :
    (R.along (t.keyOf r) r.direction c.value k).isLE = true := by
  obtain ⟨row, hrow, hw, rfl⟩ := contains_of_mem_keys hk
  have hreach := (inWindow_iff.1 hw).2 c hc
  rw [reaches_iff (keyed.isNull hrow)] at hreach
  exact Std.OrientedCmp.isGE_iff_isLE.1 hreach.2

theorem single (keyed : ∀ m, R.Keyed (t.keyOf r) (rows m)) (h0 : 1 ≤ (t.limitOf r).toNat)
    (hm : m ≤ m') (hm' : m' < last) (hnext : (R.pageOf t r (rows m) (rows m')).next = none) :
    R.Sweeps t r rows m last [R.pageOf t r (rows m) (rows m')] where
  sorted := by
    rw [Page.returned_singleton]
    exact pairwise_keys (keyed m)
  resumes := by
    rw [Page.returned_singleton]
    intro c hc k hk
    exact isLE_of_mem_keys (keyed m) hc hk
  complete := by
    intro _ _ _ k hstays
    rw [Page.returned_singleton]
    have hcases := mem_keys_or_next_le (keyed m) (keyed m') h0
      (hstays m (Nat.le_refl m) (Nat.lt_of_le_of_lt hm hm')) (hstays m' hm hm')
    rw [hnext] at hcases
    simpa using hcases

theorem cons (keyed : ∀ m, R.Keyed (t.keyOf r) (rows m)) (h0 : 1 ≤ (t.limitOf r).toNat)
    {next : ℕ} (hm : m ≤ m') (hm' : m' < next) (hlast : next ≤ last)
    (hnext : (R.pageOf t r (rows m) (rows m')).next = some c) {pages : List Page}
    (hrest : R.Sweeps t (r.startingAt (some c)) rows next last pages) :
    R.Sweeps t r rows m last (R.pageOf t r (rows m) (rows m') :: pages) where
  sorted := by
    rw [Page.returned_cons, List.pairwise_append]
    refine ⟨pairwise_keys (keyed m), hrest.sorted, ?_⟩
    intro v hv w hw
    exact Std.TransCmp.lt_of_lt_of_isLE (lt_next (keyed m) (keyed m') hnext hv)
      (hrest.resumes c rfl w hw)
  resumes := by
    intro d hd k hk
    rw [Page.returned_cons, List.mem_append] at hk
    rcases hk with hk | hk
    · exact isLE_of_mem_keys (keyed m) hd hk
    · -- the cursor lies past the last key of the page, which is at the resume point or past it
      obtain ⟨row, -, hrow, -, -⟩ := next_pageOf_eq_some hnext
      have hkey : row.value (t.keyOf r) ∈ (R.pageOf t r (rows m) (rows m')).keys (t.keyOf r) :=
        mem_keys_pageOf.2 ⟨row, List.mem_of_getLast? hrow, rfl⟩
      have hlt := Std.TransCmp.lt_of_isLE_of_lt (isLE_of_mem_keys (keyed m) hd hkey)
        (lt_next (keyed m) (keyed m') hnext hkey)
      exact Std.TransCmp.isLE_trans (Ordering.isLE_of_eq_lt hlt) (hrest.resumes c rfl k hk)
  complete := by
    intro page hpage hend k hstays
    rw [Page.returned_cons, List.mem_append]
    have hne : pages ≠ [] := by
      rintro rfl
      have hlast : R.pageOf t r (rows m) (rows m') = page := Option.some.inj hpage
      rw [← hlast, hnext] at hend
      cases hend
    rw [List.getLast?_cons_of_ne_nil hne] at hpage
    have hcases := mem_keys_or_next_le (keyed m) (keyed m') h0
      (hstays m (Nat.le_refl m) (by omega)) (hstays m' hm (by omega))
    refine hcases.imp_right ?_
    rintro ⟨c', hc', hle⟩
    obtain rfl := Option.some.inj (hnext.symm.trans hc')
    -- the key is not passed, so it stays in the window of the calls that follow
    refine hrest.complete page hpage hend k ?_
    intro i hi hi'
    exact (hstays i (by omega) hi').startingAt (keyed i).allHave
      (isWrittenNull_next (keyed m') hnext) hle

end Sweeps

end Reading

namespace Host

variable {h : Host ℕ} {R : Reading} {t : Table} {r : PageRequest} {rows : ℕ → List Row}

/-- The statements of a call take one moment or two of a host that counts them. -/
theorem Submits.moments {x y : Session ℕ} {z : ℕ} (hs : h.Submits x z y)
    (counts : ∀ s m, (h.execute s m).2 = m + 1) : x.store ≤ z ∧ z < y.store := by
  have hsubmit (s : Statement) (x : Session ℕ) : (h.submit s x).2.store = x.store + 1 :=
    counts s x.store
  cases hs with
  | once s =>
    rw [hsubmit]
    omega
  | twice s s' =>
    rw [hsubmit s', hsubmit s]
    omega

theorem run_walk_sweeps (serves : h.Serves t.name (t.Asks r) rows R.Answers)
    (keyed : ∀ m, R.Keyed (t.keyOf r) (rows m)) (small : ∀ m, (rows m).length ≤ Piece.maxCount)
    (counts : ∀ s m, (h.execute s m).2 = m + 1) (h0 : 1 ≤ (t.limitOf r).toNat) (calls : ℕ)
    (x : Session ℕ) : ∃ pages y, h.run (t.walk calls r) x = (.ok pages, y) ∧
      x.store ≤ y.store ∧ R.Sweeps t r rows x.store y.store pages := by
  -- the induction is on the calls, over all requests, since each call changes the resume point
  induction calls generalizing r x with
  | zero => exact ⟨[], x, rfl, Nat.le_refl _, .nil⟩
  | succ calls ih =>
    obtain ⟨z, y, hpage, hsubmits⟩ := run_page serves keyed small x
    obtain ⟨hxz, hzy⟩ := hsubmits.moments counts
    cases hnext : (R.pageOf t r (rows x.store) (rows z)).next with
    | none =>
      exact ⟨_, y, run_walk_last hpage hnext calls, by omega, .single keyed h0 hxz hzy hnext⟩
    | some c =>
      obtain ⟨pages, y', hwalk, hy', hrest⟩ := ih (r := r.startingAt (some c)) serves keyed h0 y
      exact ⟨_, y', run_walk_next hpage hnext hwalk, by omega,
        .cons keyed h0 hxz hzy hy' hnext hrest⟩

/-- **A walk is stable under the writes of others.**  No key is returned twice, on one page or on
two.  If the walk ends, then a key that a row in its window has had from its first statement to its
last one is returned exactly once. -/
theorem walk_stable_under_writes (R : Reading) (h : Host ℕ) (t : Table) (r : PageRequest)
    (start : List Row) (writes : ℕ → List Write)
    (keyed : ∀ m, R.Keyed (t.keyOf r) (Write.contents start writes m))
    (small : ∀ m, (Write.contents start writes m).length < Piece.maxCount)
    (serves : h.Serves t.name (t.Asks r) (Write.contents start writes) R.Answers)
    (counts : ∀ s m, (h.execute s m).2 = m + 1)
    (limit : 1 ≤ (t.limitOf r).toNat) (calls : ℕ) (x : Session ℕ) :
    ∃ pages y, h.run (t.walk calls r) x = (.ok pages, y) ∧
      (Page.returned (t.keyOf r) pages).Pairwise
        (fun v w => R.along (t.keyOf r) r.direction v w = .lt) ∧
      (∀ page, pages.getLast? = some page → page.next = none → ∀ k,
        (∀ m, x.store ≤ m → m < y.store →
          R.Contains t r (Write.contents start writes m) k) →
        (Page.returned (t.keyOf r) pages).count k = 1) := by
  obtain ⟨pages, y, hrun, -, hs⟩ :=
    run_walk_sweeps serves keyed (fun m => (small m).le) counts limit calls x
  refine ⟨pages, y, hrun, hs.sorted, ?_⟩
  intro page hlast hend k hstays
  have hnodup : (Page.returned (t.keyOf r) pages).Nodup := by
    refine hs.sorted.imp ?_
    rintro v _ hlt rfl
    rw [Reading.along_self] at hlt
    cases hlt
  exact List.count_eq_one_of_mem hnodup (hs.complete page hlast hend k hstays)

/-- One of three rows is deleted after the first statement, and another one added.  The walk shows
the deleted row on its first page and the added one on its second and last page. -/
theorem walk_stable_under_writes_three :
    let t : Table := ⟨"things", {}, by decide⟩
    let r : PageRequest := { limit := some 2, reverse := true }
    let thing (n : Int64) : Row := [("id", .integer n)]
    let writes (m : ℕ) : List Write :=
      if m = 0 then [.delete fun row => row = thing 1, .insert (thing 4)] else []
    let contents := Write.contents [thing 3, thing 1, thing 2] writes
    let h := Reading.ofIntegers.host contents (· + 1)
    ∃ pages y, h.run (t.walk 5 r) { store := 0 } = (.ok pages, y) ∧
      pages = [⟨[thing 1, thing 2], some (.ofKey (.integer 3))⟩, ⟨[thing 3, thing 4], none⟩] ∧
      (Page.returned "id" pages).Pairwise
        (fun v w => Reading.ofIntegers.along "id" .ascending v w = .lt) ∧
      (Page.returned "id" pages).count (.integer 3) = 1 := by
  intro t r thing writes contents h
  have hpages : (h.run (t.walk 5 r) { store := 0 }).1 =
      .ok [⟨[thing 1, thing 2], some (.ofKey (.integer 3))⟩, ⟨[thing 3, thing 4], none⟩] := by
    decide +kernel
  have hlater (m : ℕ) : contents (m + 1) = [thing 3, thing 2, thing 4] := by
    induction m with
    | zero => decide +kernel
    | succ m ih =>
      show (writes (m + 1)).foldl Write.apply (contents (m + 1)) = _
      rw [ih]
      rfl
  have hcontents {p : List Row → Prop} (h0 : p [thing 3, thing 1, thing 2])
      (h1 : p [thing 3, thing 2, thing 4]) (m : ℕ) : p (contents m) := by
    cases m with
    | zero => exact h0
    | succ m => exact hlater m ▸ h1
  obtain ⟨pages, y, hrun, hsorted, honce⟩ :=
    walk_stable_under_writes Reading.ofIntegers h t r [thing 3, thing 1, thing 2] writes
      (hcontents (p := Reading.ofIntegers.Keyed "id") (by decide +kernel) (by decide +kernel))
      (hcontents (p := fun rows => rows.length < Piece.maxCount) (by decide) (by decide))
      (Reading.serves_host _ _ _ _ _) (fun s _ => by cases s <;> rfl) (by decide) 5 { store := 0 }
  rw [hrun] at hpages
  obtain rfl := Except.ok.inj hpages
  refine ⟨_, y, hrun, rfl, hsorted, honce _ rfl rfl _ fun m _ _ => ?_⟩
  refine hcontents (p := fun rows => Reading.ofIntegers.Contains t r rows (.integer 3)) ?_ ?_ m
  · exact ⟨thing 3, List.mem_cons_self, by decide +kernel, rfl⟩
  · exact ⟨thing 3, List.mem_cons_self, by decide +kernel, rfl⟩

end Host

end Keyset
