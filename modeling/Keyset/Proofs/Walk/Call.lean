import Keyset.Proofs.Walk.Window

/-!
# One call of a walk

A call asks for the rows of its page and then, in one way or the other, for what follows them.
Between these two moments the table may change.  What a call gives is said three times, each time of
fewer tables:

* `Host.run_probedPage_lists`, `Host.run_overFetchedPage_lists` : of rows that have keys at all, up
  to the order of rows with one key;
* `Host.run_probedPage`, `Host.run_overFetchedPage` : of rows with pairwise distinct keys, which a
  cursor may cut to their second;
* `Host.run_page` : of keys that a cursor keeps: **every call gives `Reading.pageOf`**, whatever the
  lookahead is; no call fails.

`Reading.beyond_eq_drop` : on a table at rest the rows past a page are what the page left over.
-/

namespace Keyset

namespace Host

variable {σ α β : Type} (h : Host σ)

/-- One statement or two lead from one session to another, and the last one of them is run in the
given state of the store. -/
inductive Submits (x : Session σ) : σ → Session σ → Prop
  | once (s : Statement) : Submits x x.store (h.submit s x).2
  | twice (s s' : Statement) : Submits x (h.submit s x).2.store (h.submit s' (h.submit s x).2).2

variable {h}

theorem run_bind_ok {p : Plan α} {f : α → Plan β} {x y : Session σ} {a : α}
    (hp : h.run p x = (.ok a, y)) : h.run (p >>= f) x = h.run (f a) y := by
  change h.run (p.bind f) x = _
  rw [run_bind, hp]

theorem run_pure (a : α) (x : Session σ) : h.run (pure a) x = (.ok a, x) := rfl

theorem run_lift (a : α) (x : Session σ) : h.run (Plan.lift (.ok a)) x = (.ok a, x) := rfl

theorem run_find {t : Table} {q : Query} {x : Session σ} {answer : List Row}
    (ha : (h.execute (.select t.name q none) x.store).1 = .ok answer) :
    h.run (t.find q) x = (.ok answer, (h.submit (.select t.name q none) x).2) :=
  congrArg (·, (h.submit (.select t.name q none) x).2) ha

end Host

theorem toNat_addCounts (a b : UInt64) :
    (addCounts a b).toNat = min (a.toNat + b.toNat) (UInt64.size - 1) := by
  rw [addCounts, UInt64.toNat_ofNat_of_lt']
  have h : 0 < UInt64.size := by decide
  omega

theorem toNat_addCounts_zero (a : UInt64) : (addCounts a 0).toNat = a.toNat := by
  have h := a.toNat_lt_size
  rw [toNat_addCounts, show (0 : UInt64).toNat = 0 from rfl]
  omega

theorem toNat_addCounts_one (a : UInt64) :
    (addCounts a 1).toNat = if a.toNat + 1 = UInt64.size then a.toNat else a.toNat + 1 := by
  have h := a.toNat_lt_size
  rw [toNat_addCounts, show (1 : UInt64).toNat = 1 from rfl]
  split_ifs <;> omega

theorem exists_getLast?_of_length {α : Type} {l : List α} {n : Nat} (hl : l.length = n)
    (h0 : 1 ≤ n) : ∃ last, l.getLast? = some last :=
  ⟨_, List.getLast?_eq_some_getLast (List.ne_nil_of_length_pos (by omega))⟩

theorem exists_getLast?_take {α : Type} {l : List α} {n : Nat} (h0 : 1 ≤ n) (hl : l ≠ []) :
    ∃ last, (l.take n).getLast? = some last := by
  have hpos := List.length_pos_iff.2 hl
  rw [← Option.isSome_iff_exists, List.getLast?_isSome, ← List.length_pos_iff, List.length_take]
  omega

/-- A list is divided into pages of `limit` items, and wherever a page ends the last item on it and
the one after it are related. -/
def Page.Breaks {α : Type} (limit : Nat) (related : α → α → Prop) (l : List α) : Prop :=
  ∀ i a b, limit ∣ i + 1 → l[i]? = some a → l[i + 1]? = some b → related a b

namespace Page

variable {α : Type} {limit : Nat} {related : α → α → Prop} {l shown rest : List α} {a b : α}

theorem Breaks.of_length_le (h : l.length ≤ limit) : Breaks limit related l := by
  intro i a b hi _ hb
  have hle := Nat.le_of_dvd (Nat.succ_pos i) hi
  have hlt := (List.getElem?_eq_some_iff.1 hb).1
  omega

/-- The first page ends before `b`, and the others are those of the rest. -/
theorem breaks_append_iff (hlen : shown.length = limit) (hlast : shown.getLast? = some a) :
    Breaks limit related (shown ++ b :: rest) ↔
      related a b ∧ Breaks limit related (b :: rest) := by
  have hpos : 0 < limit := by
    rw [← hlen, List.length_pos_iff]
    exact List.ne_nil_of_mem (List.mem_of_getLast? hlast)
  have ha : (shown ++ b :: rest)[limit - 1]? = some a := by
    rw [List.getElem?_append_left (by omega), ← hlen, ← List.getLast?_eq_getElem?, hlast]
  have hdrop (i : Nat) : (shown ++ b :: rest)[limit + i]? = (b :: rest)[i]? := by
    rw [List.getElem?_append_right (by omega), hlen, Nat.add_sub_cancel_left]
  constructor
  · intro h
    constructor
    · have hfirst : limit - 1 + 1 = limit := Nat.sub_add_cancel hpos
      refine h (limit - 1) a b ⟨1, by rw [hfirst, Nat.mul_one]⟩ ha ?_
      rw [hfirst]
      exact hdrop 0
    · intro i x y hi hx hy
      refine h (limit + i) x y ?_ ((hdrop i).trans hx) ((hdrop (i + 1)).trans hy)
      rw [Nat.add_assoc]
      exact Nat.dvd_add (Nat.dvd_refl limit) hi
  · rintro ⟨hab, h⟩ i x y hi hx hy
    rcases Nat.lt_or_ge i limit with hlt | hge
    · have hle := Nat.le_of_dvd (Nat.succ_pos i) hi
      obtain rfl : i = limit - 1 := by omega
      obtain rfl : a = x := Option.some.inj (ha.symm.trans hx)
      rw [Nat.sub_add_cancel hpos] at hy
      obtain rfl : b = y := Option.some.inj ((hdrop 0).symm.trans hy)
      exact hab
    · obtain ⟨j, rfl⟩ := Nat.exists_eq_add_of_le hge
      rw [hdrop] at hx
      rw [Nat.add_assoc, hdrop] at hy
      refine h j x y ?_ hx hy
      rw [Nat.add_assoc] at hi
      exact (Nat.dvd_add_right (Nat.dvd_refl limit)).1 hi

end Page

/-- The column of the key survives the projection of a page. -/
theorem Table.get?_project_stretch (t : Table) (r : PageRequest) (row : Row) :
    (row.project (t.stretch r).columns).get? (t.keyOf r) = row.get? (t.keyOf r) := by
  apply Row.get?_project
  intro hc
  change Query.included (Walk.withKey (t.keyOf r) r.columns) ≠ [] at hc
  apply Walk.mem_included_withKey
  intro hn
  exact hc (by rw [Walk.withKey, if_pos (.inl hn), hn])

theorem Table.value_project_stretch (t : Table) (r : PageRequest) (row : Row) :
    (row.project (t.stretch r).columns).value (t.keyOf r) = row.value (t.keyOf r) := by
  rw [Row.value, t.get?_project_stretch, Row.value]

theorem Walk.keyOf_eq_ok {w : Walk} {row : Row} {v : Value} (h : row.get? w.key = some v) :
    w.keyOf row = .ok (.ofKey v) := by
  simp [keyOf, h]

namespace Reading

theorem keyOf_project {t : Table} {r : PageRequest} {rows : List Row}
    (keys : Row.AllHave (t.keyOf r) rows) {row : Row} (hr : row ∈ rows) :
    (t.stretch r).keyOf (row.project (t.stretch r).columns) =
      .ok (.ofKey (row.value (t.keyOf r))) :=
  Walk.keyOf_eq_ok ((t.get?_project_stretch r row).trans (keys.get? hr))

theorem keyOf_project_probe {t : Table} {r : PageRequest} {rows : List Row}
    (keys : Row.AllHave (t.keyOf r) rows) {row : Row} (hr : row ∈ rows) :
    (t.stretch r).keyOf (row.project [(t.keyOf r, true)]) =
      .ok (.ofKey (row.value (t.keyOf r))) := by
  refine Walk.keyOf_eq_ok ((Row.get?_project (fun _ => ?_) row).trans (keys.get? hr))
  simp [Query.included, Table.stretch, Walk.ofRequest, Table.keyOf]

variable (R : Reading)

/-- The page of a call.  Its rows are taken from `rows`; the cursor stands at the first row past
the last one of them that is there in `later`. -/
def pageOf (t : Table) (r : PageRequest) (rows later : List Row) : Page :=
  let shown := (R.visited t r rows).take (t.limitOf r).toNat
  { rows := shown.map (Row.project (t.stretch r).columns)
    next := shown.getLast?.bind fun last =>
      (R.beyond t r (last.value (t.keyOf r)) later).head?.map fun row =>
        .ofKey (row.value (t.keyOf r)) }

/-- The page of a call that looks past the last row of the page, or rather past the cursor there. -/
def probedPageOf (t : Table) (r : PageRequest) (rows later : List Row) : Page :=
  let shown := (R.visited t r rows).take (t.limitOf r).toNat
  { rows := shown.map (Row.project (t.stretch r).columns)
    next := shown.getLast?.bind fun last =>
      (R.beyond t r (Cursor.ofKey (last.value (t.keyOf r))).value later).head?.map fun row =>
        .ofKey (row.value (t.keyOf r)) }

/-- The page of a call that asks for one row more. -/
def overFetchedPageOf (t : Table) (r : PageRequest) (rows : List Row) : Page :=
  { rows := ((R.visited t r rows).take (t.limitOf r).toNat).map
      (Row.project (t.stretch r).columns)
    next := if (t.limitOf r).toNat = 0 then none
      else ((R.visited t r rows).drop (t.limitOf r).toNat).head?.map fun row =>
        .ofKey (row.value (t.keyOf r)) }

variable {R} {t : Table} {r : PageRequest} {rows later : List Row}

theorem rows_pageOf : (R.pageOf t r rows later).rows =
    ((R.visited t r rows).take (t.limitOf r).toNat).map (Row.project (t.stretch r).columns) := rfl

/-- **What a walk visits past the last row of a page is what the page left over.** -/
theorem beyond_eq_drop (keyed : R.Keyed (t.keyOf r) rows) {n : Nat} {last : Row}
    (hlast : ((R.visited t r rows).take n).getLast? = some last) :
    R.beyond t r (last.value (t.keyOf r)) rows = (R.visited t r rows).drop n := by
  have hsorted := keyed.pairwise_visited
  have hmem : last ∈ R.visited t r rows := List.mem_of_mem_take (List.mem_of_getLast? hlast)
  obtain ⟨hrows, hwin⟩ := mem_visited.1 hmem
  obtain ⟨before, htake⟩ := List.getLast?_eq_some_iff.1 hlast
  -- the list in the order of the walk: the page up to its last row, and the rest
  have hsplit : R.visited t r rows = before ++ last :: (R.visited t r rows).drop n := by
    conv_lhs => rw [← List.take_append_drop n (R.visited t r rows), htake]
    rw [List.append_assoc, List.singleton_append]
  have hparts := hsplit ▸ hsorted
  rw [List.pairwise_append, List.pairwise_cons] at hparts
  obtain ⟨-, ⟨hafter, -⟩, hbefore⟩ := hparts
  have hpass {row : Row} (hr : row ∈ rows) :
      R.passes (t.keyOf r) r.direction (row.value (t.keyOf r)) (last.value (t.keyOf r)) = true ↔
        R.Ahead (t.keyOf r) r.direction last row := by
    rw [passes_iff (keyed.isNull hr), Ahead, Std.OrientedCmp.gt_iff_lt]
    exact and_iff_right (keyed.isWrittenNull hrows)
  refine eq_of_pairwise_ahead (keyed.pairwise_beyond _) (hsorted.sublist (List.drop_sublist _ _))
    fun row => ?_
  rw [mem_beyond]
  constructor
  · rintro ⟨hr, hw, hp⟩
    have hahead := (hpass hr).1 hp
    have hin : row ∈ R.visited t r rows := by
      refine mem_visited.2 ⟨hr, inWindow_iff.2 ⟨hw, fun c hc => ?_⟩⟩
      exact reaches_of_isLE (keyed.isNull hrows) (keyed.isNull hr) ((inWindow_iff.1 hwin).2 c hc)
        hahead.isLE
    rw [hsplit, List.mem_append, List.mem_cons] at hin
    rcases hin with hb | rfl | hd
    · exact absurd (hbefore row hb last List.mem_cons_self) hahead.asymm
    · exact absurd hahead (Ahead.irrefl _)
    · exact hd
  · intro hd
    obtain ⟨hr, hw⟩ := mem_visited.1 (List.mem_of_mem_drop hd)
    exact ⟨hr, (inWindow_iff.1 hw).1, (hpass hr).2 (hafter row hd)⟩

/-- The page of a table at rest: the first rows of the walk and, unless it is empty by request,
the key of the row after them. -/
theorem pageOf_self (keyed : R.Keyed (t.keyOf r) rows) : R.pageOf t r rows rows =
    { rows := ((R.visited t r rows).take (t.limitOf r).toNat).map
        (Row.project (t.stretch r).columns)
      next := if (t.limitOf r).toNat = 0 then none
        else ((R.visited t r rows).drop (t.limitOf r).toNat).head?.map fun row =>
          .ofKey (row.value (t.keyOf r)) } := by
  rw [pageOf]
  cases hlast : ((R.visited t r rows).take (t.limitOf r).toNat).getLast? with
  | none =>
    rw [List.getLast?_eq_none_iff, List.take_eq_nil_iff] at hlast
    rcases hlast with h0 | hnil
    · simp [h0]
    · simp [hnil]
  | some last =>
    have h0 : (t.limitOf r).toNat ≠ 0 := by
      intro h0
      simp [h0] at hlast
    rw [if_neg h0, Option.bind_some, beyond_eq_drop keyed hlast]

/-- A cursor that keeps the key of the last row looks past this key. -/
theorem probedPageOf_eq_pageOf (keyed : R.Keyed (t.keyOf r) rows) :
    R.probedPageOf t r rows later = R.pageOf t r rows later := by
  rw [probedPageOf, pageOf]
  refine congrArg (Page.mk _) (Option.bind_congr fun last hlast => ?_)
  have hmem : last ∈ rows :=
    (mem_visited.1 (List.mem_of_mem_take (List.mem_of_getLast? hlast))).1
  rw [keyed.value_ofKey hmem]

theorem Answers.page {answer : List Row} {more : UInt64}
    (h : R.Answers rows ((t.stretch r).page more) answer) :
    ∃ sorted, R.Lists (t.keyOf r) r.direction (R.inWindow t r) rows sorted ∧
      answer = (sorted.take (addCounts (t.limitOf r) more).toNat).map
        (Row.project (t.stretch r).columns) :=
  h.exists_lists rfl rfl rfl fun _ => selects_page

theorem Answers.probe {answer : List Row} {last : Cursor}
    (h : R.Answers rows ((t.stretch r).probe last) answer) :
    ∃ past, R.Lists (t.keyOf r) r.direction (R.isPast t r last.value) rows past ∧
      answer = (past.take 1).map (Row.project [(t.keyOf r, true)]) :=
  h.exists_lists rfl rfl rfl fun _ => selects_probe

end Reading

namespace Host

variable {σ : Type} {h : Host σ} {R : Reading} {t : Table} {r : PageRequest} {rows : σ → List Row}

theorem run_find_page (serves : h.Serves t.name (t.Asks r) rows R.Answers) {more : UInt64}
    (hmore : more = 0 ∨ more = 1) (x : Session σ) :
    ∃ sorted, R.Lists (t.keyOf r) r.direction (R.inWindow t r) (rows x.store) sorted ∧
      h.run (t.find ((t.stretch r).page more)) x =
        (.ok ((sorted.take (addCounts (t.limitOf r) more).toNat).map
          (Row.project (t.stretch r).columns)),
        (h.submit (.select t.name ((t.stretch r).page more) none) x).2) := by
  have hasks : t.Asks r ((t.stretch r).page more) :=
    ⟨r.since, by rcases hmore with rfl | rfl <;> simp [PageRequest.startingAt_since]⟩
  obtain ⟨answer, hexec, hans⟩ := serves _ x.store hasks
  obtain ⟨sorted, hsorted, rfl⟩ := hans.page
  exact ⟨sorted, hsorted, run_find hexec⟩

theorem run_find_probe (serves : h.Serves t.name (t.Asks r) rows R.Answers) (last : Cursor)
    (x : Session σ) :
    ∃ past, R.Lists (t.keyOf r) r.direction (R.isPast t r last.value) (rows x.store) past ∧
      h.run (t.find ((t.stretch r).probe last)) x =
        (.ok ((past.take 1).map (Row.project [(t.keyOf r, true)])),
        (h.submit (.select t.name ((t.stretch r).probe last) none) x).2) := by
  have hasks : t.Asks r ((t.stretch r).probe last) := ⟨r.since, .inr (.inr ⟨last, rfl⟩)⟩
  obtain ⟨answer, hexec, hans⟩ := serves _ x.store hasks
  obtain ⟨past, hpast, rfl⟩ := hans.probe
  exact ⟨past, hpast, run_find hexec⟩

/-- A call that looks past its page, on rows that have keys. -/
theorem run_probedPage_lists (serves : h.Serves t.name (t.Asks r) rows R.Answers)
    (keys : ∀ s, Row.AllHave (t.keyOf r) (rows s)) (x : Session σ) :
    ∃ sorted z y past,
      R.Lists (t.keyOf r) r.direction (R.inWindow t r) (rows x.store) sorted ∧
      (∀ last, (sorted.take (t.limitOf r).toNat).getLast? = some last →
        R.Lists (t.keyOf r) r.direction
          (R.isPast t r (Cursor.ofKey (last.value (t.keyOf r))).value) (rows z) past) ∧
      h.run (t.probedPage (t.stretch r)) x =
        (.ok { rows := (sorted.take (t.limitOf r).toNat).map (Row.project (t.stretch r).columns)
               next := (sorted.take (t.limitOf r).toNat).getLast?.bind fun _ =>
                 past.head?.map fun row => .ofKey (row.value (t.keyOf r)) }, y) ∧
      h.Submits x z y := by
  obtain ⟨sorted, hsorted, hpage⟩ := run_find_page serves (.inl rfl) x
  rw [toNat_addCounts_zero] at hpage
  rw [Table.probedPage, run_bind_ok hpage, List.getLast?_map]
  cases hlast : (sorted.take (t.limitOf r).toNat).getLast? with
  | none =>
    refine ⟨sorted, x.store, (h.submit (.select t.name ((t.stretch r).page 0) none) x).2, [],
      hsorted, ?_, ?_, .once _⟩
    · rintro last hnone
      rw [hlast] at hnone
      cases hnone
    · simp only [Option.map_none, hlast, Option.bind_none, run_pure]
  | some last =>
    have hmem : last ∈ rows x.store :=
      (hsorted.mem_iff.1 (List.mem_of_mem_take (List.mem_of_getLast? hlast))).1
    -- the table may have changed when the second statement is run
    set y := (h.submit (.select t.name ((t.stretch r).page 0) none) x).2
    obtain ⟨past, hpast, hprobe⟩ :=
      run_find_probe serves (.ofKey (last.value (t.keyOf r))) y
    refine ⟨sorted, y.store, (h.submit (.select t.name
      ((t.stretch r).probe (.ofKey (last.value (t.keyOf r)))) none) y).2, past, hsorted, ?_, ?_,
      .twice _ _⟩
    · rintro last' hlast'
      rw [hlast] at hlast'
      cases hlast'
      exact hpast
    simp only [hlast, Option.bind_some, Option.map_some, Reading.keyOf_project (keys _) hmem]
    rw [run_bind_ok (run_lift _ y), run_bind_ok hprobe]
    cases past with
    | nil => simp [run_pure]
    | cons row rest =>
      have hrow : row ∈ rows y.store := (hpast.mem_iff.1 List.mem_cons_self).1
      simp only [List.take_succ_cons, List.take_zero, List.map_cons, List.map_nil, List.head?_cons,
        Option.map_some, Reading.keyOf_project_probe (keys _) hrow]
      rw [run_bind_ok (run_lift _ _), run_pure]

theorem run_probedPage (serves : h.Serves t.name (t.Asks r) rows R.Answers)
    (keys : ∀ s, Row.AllHave (t.keyOf r) (rows s)) (distinct : ∀ s, R.Distinct (t.keyOf r) (rows s))
    (x : Session σ) : ∃ z y, h.run (t.probedPage (t.stretch r)) x =
      (.ok (R.probedPageOf t r (rows x.store) (rows z)), y) ∧ h.Submits x z y := by
  obtain ⟨sorted, z, y, past, hsorted, hpast, hrun, hsubmits⟩ :=
    run_probedPage_lists serves keys x
  refine ⟨z, y, ?_, hsubmits⟩
  obtain rfl := hsorted.eq_of_distinct (distinct _) Reading.lists_visited
  rw [hrun, Reading.probedPageOf]
  refine congrArg (fun next => (Except.ok (Page.mk _ next), y)) ?_
  refine Option.bind_congr fun last hl => ?_
  rw [(hpast last hl).eq_of_distinct (distinct z) (Reading.lists_beyond _)]

/-- A call that asks for one row more, on rows that have keys.  There is no count for one row more
than the largest one. -/
theorem run_overFetchedPage_lists (serves : h.Serves t.name (t.Asks r) rows R.Answers)
    (keys : ∀ s, Row.AllHave (t.keyOf r) (rows s)) (x : Session σ) :
    ∃ sorted y,
      R.Lists (t.keyOf r) r.direction (R.inWindow t r) (rows x.store) sorted ∧
      h.run (t.overFetchedPage (t.stretch r)) x =
        (.ok { rows := (sorted.take (t.limitOf r).toNat).map (Row.project (t.stretch r).columns)
               next := if (t.limitOf r).toNat = 0 ∨ (t.limitOf r).toNat + 1 = UInt64.size then none
                 else (sorted.drop (t.limitOf r).toNat).head?.map fun row =>
                   .ofKey (row.value (t.keyOf r)) }, y) ∧
      h.Submits x x.store y := by
  obtain ⟨sorted, hsorted, hpage⟩ := run_find_page serves (.inr rfl) x
  rw [toNat_addCounts_one] at hpage
  -- one statement only, so the end of the page is looked at in the same table
  refine ⟨sorted, _, hsorted, ?_, .once (.select t.name ((t.stretch r).page 1) none)⟩
  rw [Table.overFetchedPage, run_bind_ok hpage]
  simp only [← List.map_take, ← List.map_drop, List.take_take, List.drop_take,
    show (t.stretch r).limit = t.limitOf r from rfl]
  by_cases hsize : (t.limitOf r).toNat + 1 = UInt64.size
  · simp [hsize, run_pure]
  rw [if_neg hsize, Nat.min_eq_left (Nat.le_add_right _ 1), Nat.add_sub_cancel_left]
  cases hd : sorted.drop (t.limitOf r).toNat with
  | nil => simp [run_pure]
  | cons row rest =>
    have hrow : row ∈ rows x.store :=
      (hsorted.mem_iff.1 (List.mem_of_mem_drop (hd ▸ List.mem_cons_self))).1
    simp only [List.take_succ_cons, List.take_zero, List.map_cons, List.map_nil, List.head?_cons,
      Option.map_some, Reading.keyOf_project (keys _) hrow, hsize, or_false]
    split_ifs
    · rw [run_pure]
    · rw [run_bind_ok (run_lift _ _), run_pure]

theorem run_overFetchedPage (serves : h.Serves t.name (t.Asks r) rows R.Answers)
    (keys : ∀ s, Row.AllHave (t.keyOf r) (rows s)) (distinct : ∀ s, R.Distinct (t.keyOf r) (rows s))
    (small : ∀ s, (rows s).length ≤ Piece.maxCount) (x : Session σ) :
    ∃ y, h.run (t.overFetchedPage (t.stretch r)) x =
      (.ok (R.overFetchedPageOf t r (rows x.store)), y) ∧ h.Submits x x.store y := by
  obtain ⟨sorted, y, hsorted, hrun, hsubmits⟩ := run_overFetchedPage_lists serves keys x
  refine ⟨y, ?_, hsubmits⟩
  have hlength := Nat.le_trans hsorted.length_le (small _)
  obtain rfl := hsorted.eq_of_distinct (distinct _) Reading.lists_visited
  rw [hrun, Reading.overFetchedPageOf]
  by_cases hsize : (t.limitOf r).toNat + 1 = UInt64.size
  · -- the table is not so large that a page of the largest size leaves a row over
    have hmax : Piece.maxCount + 1 < UInt64.size := by decide
    rw [if_pos (.inr hsize), List.drop_eq_nil_of_le (by omega), List.head?_nil, Option.map_none,
      ite_self]
  · simp only [hsize, or_false]

/-- **Every call of a walk gives its page**, whatever the lookahead is. -/
theorem run_page (serves : h.Serves t.name (t.Asks r) rows R.Answers)
    (keyed : ∀ s, R.Keyed (t.keyOf r) (rows s)) (small : ∀ s, (rows s).length ≤ Piece.maxCount)
    (x : Session σ) : ∃ z y, h.run (t.page r) x =
      (.ok (R.pageOf t r (rows x.store) (rows z)), y) ∧ h.Submits x z y := by
  have keys (s : σ) : Row.AllHave (t.keyOf r) (rows s) := (keyed s).allHave
  have distinct (s : σ) : R.Distinct (t.keyOf r) (rows s) := (keyed s).distinct
  rw [Table.page]
  cases t.settings.lookahead with
  | probe =>
    obtain ⟨z, y, hrun, hsubmits⟩ := run_probedPage serves keys distinct x
    rw [Reading.probedPageOf_eq_pageOf (keyed _)] at hrun
    exact ⟨z, y, hrun, hsubmits⟩
  | overFetch =>
    obtain ⟨y, hrun, hsubmits⟩ := run_overFetchedPage serves keys distinct small x
    rw [Reading.overFetchedPageOf, ← Reading.pageOf_self (keyed _)] at hrun
    exact ⟨x.store, y, hrun, hsubmits⟩

end Host

/-! ### Call after call -/

/-- The walk of a client that asks for page after page, each time from the cursor of the page
before, until a page has none.  It stops at the latest after the given number of calls. -/
def Table.walk (t : Table) : Nat → PageRequest → Plan (List Page)
  | 0, _ => pure []
  | calls + 1, r => do
    let page ← t.page r
    match page.next with
    | none => return [page]
    | some c => return page :: (← t.walk calls (r.startingAt (some c)))

namespace Page

/-- The pages of a walk that has ended. -/
def Ended (pages : List Page) : Prop := ∃ page, pages.getLast? = some page ∧ page.next = none

variable {page : Page} {pages : List Page}

theorem not_ended_nil : ¬ Ended [] := by
  rintro ⟨page, hlast, -⟩
  cases hlast

theorem ended_singleton (h : page.next = none) : Ended [page] := ⟨page, rfl, h⟩

theorem ended_cons_iff (h : page.next ≠ none) : Ended (page :: pages) ↔ Ended pages := by
  cases pages with
  | nil =>
    refine iff_of_false ?_ not_ended_nil
    rintro ⟨last, hlast, hnext⟩
    obtain rfl : page = last := Option.some.inj hlast
    exact h hnext
  | cons second pages =>
    rw [Ended, Ended, List.getLast?_cons_of_ne_nil (List.cons_ne_nil second pages)]

end Page

namespace Host

variable {σ : Type} {h : Host σ} {t : Table} {r : PageRequest} {x y z : Session σ} {page : Page}

theorem run_walk_last (hpage : h.run (t.page r) x = (.ok page, y)) (hnext : page.next = none)
    (calls : Nat) : h.run (t.walk (calls + 1) r) x = (.ok [page], y) := by
  rw [Table.walk, run_bind_ok hpage, hnext, run_pure]

theorem run_walk_next (hpage : h.run (t.page r) x = (.ok page, y)) {c : Cursor}
    (hnext : page.next = some c) {calls : Nat} {pages : List Page}
    (hwalk : h.run (t.walk calls (r.startingAt (some c))) y = (.ok pages, z)) :
    h.run (t.walk (calls + 1) r) x = (.ok (page :: pages), z) := by
  rw [Table.walk, run_bind_ok hpage, hnext]
  rw [run_bind_ok hwalk, run_pure]

end Host

end Keyset
