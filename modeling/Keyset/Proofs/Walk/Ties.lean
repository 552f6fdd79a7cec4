import Keyset.Proofs.Walk.Interference
import Mathlib.Data.Finset.Card

/-!
# The walk along a key that rows share

Where several rows have one key, a page may end between them, and the store may list them in another
order each time.  A walk that looks past the last row of a page then leaves rows out, but no key:
whatever rows the page shows, the next one begins with the first key past them.

What is left to a walk is described by the keys in its window, and `Reading.Advances` says what one
call does to them.  Each call that does not end the walk returns one of them at least and goes on
with those past it, so their number bounds the calls.

* `Host.run_page_advances` : every call does so, in whatever order it gets the rows of one key.
* `Reading.Covers.cons` : what a walk keeps from call to call.
* `Host.walk_covers_keys` : **the walk ends, its pages lie one past the other, and each key in the
  window is on exactly one of them.**
-/

namespace Keyset

namespace Reading

section

variable (R : Reading)

/-- Every row has a key that a cursor keeps as it is, and keys at one place in the order are equal.
Rows may share a key. -/
structure Ranked (key : String) (rows : List Row) : Prop where
  /-- The key is there. -/
  present : Row.AllHave key rows
  /-- A cursor keeps the key. -/
  kept : ∀ row ∈ rows, (Cursor.ofKey (row.value key)).value = row.value key
  /-- The order tells the keys apart. -/
  antisymm : ∀ a ∈ rows, ∀ b ∈ rows,
    R.cmp key (a.value key) (b.value key) = .eq → a.value key = b.value key

/-- The keys in the window of a request. -/
def windowKeys (t : Table) (r : PageRequest) (rows : List Row) : Finset Value :=
  ((rows.filter (R.inWindow t r)).map (·.value (t.keyOf r))).toFinset

/-- What a call shows of the keys in its window, and where it leads. -/
structure Advances (t : Table) (r : PageRequest) (rows : List Row) (page : Page) : Prop where
  /-- The keys on the page are in the window. -/
  shown : ∀ k ∈ page.keys (t.keyOf r), R.Contains t r rows k
  /-- A page without a cursor shows all of them. -/
  ends : page.next = none → ∀ k, R.Contains t r rows k → k ∈ page.keys (t.keyOf r)
  /-- A cursor is one of the keys and lies past the page, which is not empty, and no key lies
  between them. -/
  goesOn : ∀ c, page.next = some c → page.keys (t.keyOf r) ≠ [] ∧ R.Contains t r rows c.value ∧
    (∀ k ∈ page.keys (t.keyOf r), R.along (t.keyOf r) r.direction k c.value = .lt) ∧
    ∀ k, R.Contains t r rows k →
      k ∈ page.keys (t.keyOf r) ∨ (R.along (t.keyOf r) r.direction c.value k).isLE = true

/-- What a walk returns of the keys in its window. -/
structure Covers (t : Table) (r : PageRequest) (rows : List Row) (pages : List Page) : Prop where
  /-- The pages lie one past the other. -/
  apart : pages.Pairwise fun p q =>
    ∀ k ∈ p.keys (t.keyOf r), ∀ l ∈ q.keys (t.keyOf r), R.along (t.keyOf r) r.direction k l = .lt
  /-- The keys in the window are returned, and no others. -/
  mem_iff : ∀ k, k ∈ Page.returned (t.keyOf r) pages ↔ R.Contains t r rows k
  /-- There is a key for every page but the first. -/
  length_le : pages.length ≤ max 1 (R.windowKeys t r rows).card
  /-- The walk has ended. -/
  ended : ∃ page, pages.getLast? = some page ∧ page.next = none

end

variable {R : Reading} {t : Table} {r : PageRequest} {rows : List Row} {k : Value} {c : Cursor}

theorem along_eq_iff {key : String} {d : Direction} {v w : Value} :
    R.along key d v w = .eq ↔ R.cmp key v w = .eq := by
  cases d <;> simp [along, Direction.orient]

theorem mem_windowKeys : k ∈ R.windowKeys t r rows ↔ R.Contains t r rows k := by
  simp only [windowKeys, List.mem_toFinset, List.mem_map, List.mem_filter, Contains, and_assoc]

/-! ### One call -/

theorem inWindow_startingAt_iff (keys : Row.AllHave (t.keyOf r) rows)
    (hc : R.Contains t r rows c.value) {row : Row} (hr : row ∈ rows) :
    R.inWindow t (r.startingAt (some c)) row = true ↔ R.inWindow t r row = true ∧
      (R.along (t.keyOf r) r.direction c.value (row.value (t.keyOf r))).isLE = true := by
  obtain ⟨first, hfirst, hwin, hvalue⟩ := hc
  have hnull : c.value.isWrittenNull = false := hvalue ▸ keys.isWrittenNull hfirst
  constructor
  · intro hresumed
    obtain ⟨hbase, hreach⟩ := inWindow_iff.1 hresumed
    have hle : (R.along (t.keyOf r) r.direction c.value (row.value (t.keyOf r))).isLE = true :=
      Std.OrientedCmp.isGE_iff_isLE.1 ((reaches_iff (keys.isNull hr)).1 (hreach c rfl)).2
    refine ⟨inWindow_iff.2 ⟨hbase, fun since hsince => ?_⟩, hle⟩
    rw [← hvalue] at hle
    exact reaches_of_isLE (keys.isNull hfirst) (keys.isNull hr)
      ((inWindow_iff.1 hwin).2 since hsince) hle
  · rintro ⟨hw, hle⟩
    refine inWindow_iff.2 ⟨(inWindow_iff.1 hw).1, fun d hd => ?_⟩
    obtain rfl : c = d := Option.some.inj hd
    exact (reaches_iff (keys.isNull hr)).2 ⟨hnull, Std.OrientedCmp.isGE_of_isLE hle⟩

theorem contains_startingAt_iff (keys : Row.AllHave (t.keyOf r) rows)
    (hc : R.Contains t r rows c.value) : R.Contains t (r.startingAt (some c)) rows k ↔
      R.Contains t r rows k ∧ (R.along (t.keyOf r) r.direction c.value k).isLE = true := by
  constructor
  · rintro ⟨row, hr, hw, rfl⟩
    obtain ⟨hw, hle⟩ := (inWindow_startingAt_iff keys hc hr).1 hw
    exact ⟨⟨row, hr, hw, rfl⟩, hle⟩
  · rintro ⟨⟨row, hr, hw, rfl⟩, hle⟩
    exact ⟨row, hr, (inWindow_startingAt_iff keys hc hr).2 ⟨hw, hle⟩, rfl⟩

/-- The last row of a page stands for its key: the keys in the window are on the page or past it. -/
theorem Ranked.mem_keys_or_mem_past (ranked : R.Ranked (t.keyOf r) rows)
    (h0 : 1 ≤ (t.limitOf r).toNat) {sorted past : List Row}
    (hsorted : R.Lists (t.keyOf r) r.direction (R.inWindow t r) rows sorted)
    (hpast : ∀ last, (sorted.take (t.limitOf r).toNat).getLast? = some last →
      R.Lists (t.keyOf r) r.direction
        (R.isPast t r (Cursor.ofKey (last.value (t.keyOf r))).value) rows past)
    (hk : R.Contains t r rows k) :
    k ∈ (sorted.take (t.limitOf r).toNat).map (·.value (t.keyOf r)) ∨
      (∃ last, (sorted.take (t.limitOf r).toNat).getLast? = some last) ∧
        ∃ row ∈ past, row.value (t.keyOf r) = k := by
  obtain ⟨row, hrow, hwin, rfl⟩ := hk
  have hmem : row ∈ sorted := hsorted.mem_iff.2 ⟨hrow, hwin⟩
  have horder := hsorted.sorted
  rw [← List.take_append_drop (t.limitOf r).toNat sorted] at hmem horder
  rcases List.mem_append.1 hmem with hshown | hleft
  · exact .inl (List.mem_map.2 ⟨row, hshown, rfl⟩)
  -- the page is full, so it has a last row, which does not come after this one
  · obtain ⟨last, hlast⟩ :=
      exists_getLast?_take h0 (List.ne_nil_of_mem (List.mem_of_mem_drop hleft))
    have hlastmem := List.mem_of_getLast? hlast
    have hlastrow : last ∈ rows := (hsorted.mem_iff.1 (List.mem_of_mem_take hlastmem)).1
    have hle := (List.pairwise_append.1 horder).2.2 last hlastmem row hleft
    cases hcmp : R.along (t.keyOf r) r.direction (last.value (t.keyOf r))
      (row.value (t.keyOf r)) with
    | gt =>
      rw [hcmp] at hle
      cases hle
    | eq =>
      have hkey := ranked.antisymm last hlastrow row hrow (along_eq_iff.1 hcmp)
      exact .inl (List.mem_map.2 ⟨last, hlastmem, hkey⟩)
    | lt =>
      refine .inr ⟨⟨last, hlast⟩, row, (hpast last hlast).mem_iff.2 ⟨hrow, ?_⟩, rfl⟩
      rw [isPast_iff, ranked.kept last hlastrow, passes_iff (ranked.present.isNull hrow)]
      exact ⟨(inWindow_iff.1 hwin).1, ranked.present.isWrittenNull hlastrow,
        Std.OrientedCmp.gt_iff_lt.2 hcmp⟩

/-- **What a call does to the keys of its window**, whatever the order is in which rows of one key
come. -/
theorem Ranked.advances (ranked : R.Ranked (t.keyOf r) rows) (h0 : 1 ≤ (t.limitOf r).toNat)
    {sorted past : List Row}
    (hsorted : R.Lists (t.keyOf r) r.direction (R.inWindow t r) rows sorted)
    (hpast : ∀ last, (sorted.take (t.limitOf r).toNat).getLast? = some last →
      R.Lists (t.keyOf r) r.direction
        (R.isPast t r (Cursor.ofKey (last.value (t.keyOf r))).value) rows past) :
    R.Advances t r rows
      { rows := (sorted.take (t.limitOf r).toNat).map (Row.project (t.stretch r).columns)
        next := (sorted.take (t.limitOf r).toNat).getLast?.bind fun _ =>
          past.head?.map fun row => .ofKey (row.value (t.keyOf r)) } := by
  have hcases {k : Value} := ranked.mem_keys_or_mem_past h0 hsorted hpast (k := k)
  refine ⟨?_, ?_, ?_⟩
  · intro k hk
    rw [keys_map_project] at hk
    obtain ⟨row, hrow, rfl⟩ := List.mem_map.1 hk
    obtain ⟨hr, hw⟩ := hsorted.mem_iff.1 (List.mem_of_mem_take hrow)
    exact ⟨row, hr, hw, rfl⟩
  · intro hnone k hk
    rw [keys_map_project]
    rcases hcases hk with hkey | ⟨⟨last, hlast⟩, row, hrow, -⟩
    · exact hkey
    · simp only [hlast, Option.bind_some, Option.map_eq_none_iff, List.head?_eq_none_iff] at hnone
      rw [hnone] at hrow
      cases hrow
  · intro c hnext
    obtain ⟨last, hlast, hfirst⟩ := Option.bind_eq_some_iff.1 hnext
    obtain ⟨first, hhead, rfl⟩ := Option.map_eq_some_iff.1 hfirst
    have hlists := hpast last hlast
    have hlastmem := List.mem_of_getLast? hlast
    obtain ⟨hlastrow, hlastwin⟩ := hsorted.mem_iff.1 (List.mem_of_mem_take hlastmem)
    obtain ⟨hfirstrow, hfirstpast⟩ := hlists.mem_iff.1 (List.mem_of_head? hhead)
    rw [isPast_iff, ranked.kept last hlastrow, passes_iff (ranked.present.isNull hfirstrow)]
      at hfirstpast
    obtain ⟨hfirstwin, -, hgt⟩ := hfirstpast
    have hlt : R.along (t.keyOf r) r.direction (last.value (t.keyOf r))
        (first.value (t.keyOf r)) = .lt :=
      Std.OrientedCmp.gt_iff_lt.1 hgt
    rw [ranked.kept first hfirstrow, keys_map_project]
    refine ⟨?_, ⟨first, hfirstrow, inWindow_iff.2 ⟨hfirstwin, ?_⟩, rfl⟩, ?_, ?_⟩
    · exact List.ne_nil_of_mem (List.mem_map.2 ⟨last, hlastmem, rfl⟩)
    · intro since hsince
      exact reaches_of_isLE (ranked.present.isNull hlastrow) (ranked.present.isNull hfirstrow)
        ((inWindow_iff.1 hlastwin).2 since hsince) (Ordering.isLE_of_eq_lt hlt)
    · intro k hk
      obtain ⟨row, hrow, rfl⟩ := List.mem_map.1 hk
      -- every row of the page is its last one or comes before it
      obtain ⟨before, htake⟩ := List.getLast?_eq_some_iff.1 hlast
      have horder := hsorted.sorted.sublist (List.take_sublist (t.limitOf r).toNat _)
      rw [htake, List.pairwise_append] at horder
      rw [htake, List.mem_append, List.mem_singleton] at hrow
      rcases hrow with hb | rfl
      · exact Std.TransCmp.lt_of_isLE_of_lt
          (horder.2.2 row hb last (List.mem_singleton_self last)) hlt
      · exact hlt
    · intro k hk
      refine (hcases hk).imp_right ?_
      rintro ⟨-, row, hrow, rfl⟩
      exact hlists.isLE_head hhead hrow

/-! ### Call after call -/

namespace Covers

variable {page : Page} {pages : List Page}

theorem single (h : R.Advances t r rows page) (hnext : page.next = none) :
    R.Covers t r rows [page] where
  apart := List.pairwise_singleton _ _
  mem_iff k := by
    rw [Page.returned_singleton]
    exact ⟨h.shown k, h.ends hnext k⟩
  length_le := Nat.le_max_left 1 _
  ended := ⟨page, rfl, hnext⟩

theorem card_windowKeys_startingAt (keys : Row.AllHave (t.keyOf r) rows)
    (h : R.Advances t r rows page) (hnext : page.next = some c) :
    0 < (R.windowKeys t (r.startingAt (some c)) rows).card ∧
      (R.windowKeys t (r.startingAt (some c)) rows).card < (R.windowKeys t r rows).card := by
  obtain ⟨hne, hc, hbefore, -⟩ := h.goesOn c hnext
  refine ⟨Finset.card_pos.2 ⟨c.value, ?_⟩, Finset.card_lt_card (Finset.ssubset_iff.2 ?_)⟩
  · rw [mem_windowKeys, contains_startingAt_iff keys hc]
    exact ⟨hc, Std.ReflCmp.isLE_rfl⟩
  · obtain ⟨k, hk⟩ := List.exists_mem_of_ne_nil _ hne
    refine ⟨k, ?_, ?_⟩
    · rw [mem_windowKeys, contains_startingAt_iff keys hc]
      rintro ⟨-, hle⟩
      exact Std.OrientedCmp.not_lt_of_isLE hle (hbefore k hk)
    · intro l hl
      rw [Finset.mem_insert] at hl
      rcases hl with rfl | hl
      · exact mem_windowKeys.2 (h.shown l hk)
      · rw [mem_windowKeys, contains_startingAt_iff keys hc] at hl
        exact mem_windowKeys.2 hl.1

theorem cons (keys : Row.AllHave (t.keyOf r) rows) (h : R.Advances t r rows page)
    (hnext : page.next = some c) (hrest : R.Covers t (r.startingAt (some c)) rows pages) :
    R.Covers t r rows (page :: pages) := by
  obtain ⟨-, hc, hbefore, hcases⟩ := h.goesOn c hnext
  refine ⟨List.pairwise_cons.2 ⟨?_, hrest.apart⟩, ?_, ?_, ?_⟩
  · intro q hq k hk l hl
    have hreturned := (hrest.mem_iff l).1 (List.mem_flatMap.2 ⟨q, hq, hl⟩)
    exact Std.TransCmp.lt_of_lt_of_isLE (hbefore k hk)
      ((contains_startingAt_iff keys hc).1 hreturned).2
  · intro k
    have hlater := (hrest.mem_iff k).trans (contains_startingAt_iff keys hc)
    rw [Page.returned_cons, List.mem_append]
    constructor
    · rintro (hk | hk)
      · exact h.shown k hk
      · exact (hlater.1 hk).1
    · intro hk
      exact (hcases k hk).imp_right fun hle => hlater.2 ⟨hk, hle⟩
  · have hlength := hrest.length_le
    obtain ⟨hpos, hlt⟩ := card_windowKeys_startingAt keys h hnext
    rw [List.length_cons]
    omega
  · obtain ⟨last, hlast, hend⟩ := hrest.ended
    exact ⟨last, by rw [List.getLast?_cons, hlast]; rfl, hend⟩

theorem countP_eq_one (h : R.Covers t r rows pages) (hk : R.Contains t r rows k) :
    pages.countP (fun page => k ∈ page.keys (t.keyOf r)) = 1 := by
  obtain ⟨page, hpage, hkey⟩ := List.mem_flatMap.1 ((h.mem_iff k).2 hk)
  obtain ⟨before, after, rfl⟩ := List.append_of_mem hpage
  have hapart := h.apart
  rw [List.pairwise_append, List.pairwise_cons] at hapart
  obtain ⟨-, ⟨hafter, -⟩, hbefore⟩ := hapart
  -- a page on either side that had the key too would lie past itself
  have hself : R.along (t.keyOf r) r.direction k k ≠ .lt := by
    rw [along_self]
    decide
  have hb : before.countP (fun page => k ∈ page.keys (t.keyOf r)) = 0 := by
    refine List.countP_eq_zero.2 fun p hp hkp => hself ?_
    exact hbefore p hp page List.mem_cons_self k (of_decide_eq_true hkp) k hkey
  have ha : after.countP (fun page => k ∈ page.keys (t.keyOf r)) = 0 := by
    refine List.countP_eq_zero.2 fun q hq hkq => hself ?_
    exact hafter q hq k hkey k (of_decide_eq_true hkq)
  rw [List.countP_append, List.countP_cons, if_pos (decide_eq_true hkey), hb, ha]

end Covers

end Reading

namespace Host

variable {σ : Type} {h : Host σ} {R : Reading} {t : Table} {r : PageRequest} {rows : List Row}

theorem run_page_advances (serves : h.Serves t.name (t.Asks r) (fun _ => rows) R.Answers)
    (probe : t.settings.lookahead = .probe) (ranked : R.Ranked (t.keyOf r) rows)
    (h0 : 1 ≤ (t.limitOf r).toNat) (x : Session σ) :
    ∃ page y, h.run (t.page r) x = (.ok page, y) ∧ R.Advances t r rows page := by
  obtain ⟨sorted, z, y, past, hsorted, hpast, hrun, -⟩ :=
    run_probedPage_lists serves (fun _ => ranked.present) x
  refine ⟨_, y, ?_, ranked.advances h0 hsorted hpast⟩
  rw [Table.page, probe]
  exact hrun

theorem run_walk_covers (serves : h.Serves t.name (t.Asks r) (fun _ => rows) R.Answers)
    (probe : t.settings.lookahead = .probe) (ranked : R.Ranked (t.keyOf r) rows)
    (h0 : 1 ≤ (t.limitOf r).toNat) (x : Session σ) :
    ∃ pages, R.Covers t r rows pages ∧
      ∀ calls, (h.run (t.walk calls r) x).1 = .ok (pages.take calls) := by
  -- the induction is on the keys that are left, of which each call returns one at least
  induction hn : (R.windowKeys t r rows).card using Nat.strongRecOn generalizing r x with
  | ind n ih =>
    obtain ⟨page, y, hpage, hadvances⟩ := run_page_advances serves probe ranked h0 x
    cases hnext : page.next with
    | none =>
      refine ⟨[page], .single hadvances hnext, fun calls => ?_⟩
      cases calls with
      | zero => rfl
      | succ calls =>
        rw [run_walk_last hpage hnext, List.take_succ_cons, List.take_nil]
    | some c =>
      have hless := (Reading.Covers.card_windowKeys_startingAt ranked.present hadvances hnext).2
      obtain ⟨pages, hcovers, hwalk⟩ :=
        ih _ (hn ▸ hless) (r := r.startingAt (some c)) serves ranked h0 y rfl
      refine ⟨page :: pages, .cons ranked.present hadvances hnext hcovers, fun calls => ?_⟩
      cases calls with
      | zero => rfl
      | succ calls =>
        rw [run_walk_next hpage hnext (Prod.ext (hwalk calls) rfl), List.take_succ_cons]

/-- **A walk that looks past its pages covers the keys, even if rows share them.**  It ends, after
one call for each key in its window at the most, and one if there is none.  Each key on a page lies
strictly past those on the pages before it, and the keys that are returned are those in the window,
each of them on one page. -/
theorem walk_covers_keys (R : Reading) (h : Host σ) (t : Table) (r : PageRequest)
    (rows : List Row) (probe : t.settings.lookahead = .probe) (ranked : R.Ranked (t.keyOf r) rows)
    (serves : h.Serves t.name (t.Asks r) (fun _ => rows) R.Answers)
    (limit : 1 ≤ (t.limitOf r).toNat) (x : Session σ) :
    ∃ pages : List Page, (∀ calls, (h.run (t.walk calls r) x).1 = .ok (pages.take calls)) ∧
      (∃ page, pages.getLast? = some page ∧ page.next = none) ∧
      pages.length ≤ max 1 (R.windowKeys t r rows).card ∧
      (pages.Pairwise fun p q => ∀ k ∈ p.keys (t.keyOf r), ∀ l ∈ q.keys (t.keyOf r),
        R.along (t.keyOf r) r.direction k l = .lt) ∧
      (∀ k, k ∈ Page.returned (t.keyOf r) pages ↔ R.Contains t r rows k) ∧
      ∀ k, R.Contains t r rows k →
        pages.countP (fun page => k ∈ page.keys (t.keyOf r)) = 1 := by
  obtain ⟨pages, hcovers, hwalk⟩ := run_walk_covers serves probe ranked limit x
  exact ⟨pages, hwalk, hcovers.ended, hcovers.length_le, hcovers.apart, hcovers.mem_iff,
    fun k hk => hcovers.countP_eq_one hk⟩

/-- Five rows with two keys take two calls at the most, on pages of two. -/
theorem walk_covers_keys_five :
    let t : Table := ⟨"things", {}, by decide⟩
    let r : PageRequest := { limit := some 2 }
    let rows : List Row := [2, 1, 2, 1, 1].map fun n => [("id", .integer n)]
    let h := Reading.ofIntegers.host (fun _ : Unit => rows) id
    ∃ pages : List Page, pages.length ≤ 2 ∧
      (∀ calls, (h.run (t.walk calls r) { store := () }).1 = .ok (pages.take calls)) ∧
      Value.integer 2 ∈ Page.returned "id" pages := by
  intro t r rows h
  have present : Row.AllHave "id" rows := by
    intro row hr
    obtain ⟨n, -, rfl⟩ := List.mem_map.1 hr
    exact ⟨.integer n, rfl, rfl⟩
  obtain ⟨pages, hrun, -, hlength, -, hkeys, -⟩ :=
    walk_covers_keys Reading.ofIntegers h t r rows rfl
      ⟨present, by decide +kernel, by decide +kernel⟩
      (Reading.serves_host _ _ _ _ _) (by decide) { store := () }
  refine ⟨pages, ?_, hrun, ?_⟩
  · refine hlength.trans ?_
    decide +kernel
  · refine (hkeys _).2 ⟨[("id", .integer 2)], List.mem_cons_self, by decide +kernel, rfl⟩

end Host

end Keyset
