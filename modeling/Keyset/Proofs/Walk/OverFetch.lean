import Keyset.Proofs.Walk.Ties

/-!
# The walk that asks for one row more, along a key that rows share

A walk that asks for one row more than a page holds goes on at the key of that row, itself included.
Where several rows have one key the page may have shown some of them already, and the next page
shows these again before it comes to the row.  If it has no room for more than these, the walk does
not get past the key.

A call is described by a list of the rows in its window: the page is cut from the front of it, and
the first row left over is where the walk goes on (`Reading.Fetches`).  Before the rows left over,
the list of the next call has those rows of the page that share their key with the first of them
(`Reading.Ranked.lists_startingAt`).  From this step:

* `Host.run_walk_exhausts` : what a walk that has ended says about the keys in its window;
* `Host.exists_ended`, `Host.exists_each_once` : when a walk ends, and when it returns each row
  once;
* `Host.run_walk_twins` : two equal rows keep a walk on pages of one row from ending;
* `Host.walk_ends_iff_keys_fit` : **a walk ends iff no key has more rows than a page holds, and it
  returns each row once iff every page ends between two keys.**
-/

namespace Keyset

/-! ### Keys in order -/

namespace Reading

section

variable (R : Reading)

/-- The keys in the window of a request, in the order of the walk and as many times as there are
rows. -/
def keysInOrder (t : Table) (r : PageRequest) (rows : List Row) : List Value :=
  (R.visited t r rows).map (·.value (t.keyOf r))

/-- What a call that asks for one row more gives of the rows in its window.  There is no count for
one row more than the largest one. -/
inductive Fetches (t : Table) (r : PageRequest) (rows : List Row) : Page → Prop
  /-- No row is left over, or none can be asked for. -/
  | last {sorted : List Row}
    (lists : R.Lists (t.keyOf r) r.direction (R.inWindow t r) rows sorted)
    (nothing : sorted.length ≤ (t.limitOf r).toNat ∨ (t.limitOf r).toNat + 1 = UInt64.size) :
    Fetches t r rows
      ⟨(sorted.take (t.limitOf r).toNat).map (Row.project (t.stretch r).columns), none⟩
  /-- The walk goes on at the key of the first row left over. -/
  | more {shown rest : List Row} {first : Row}
    (lists : R.Lists (t.keyOf r) r.direction (R.inWindow t r) rows (shown ++ first :: rest))
    (full : shown.length = (t.limitOf r).toNat)
    (room : (t.limitOf r).toNat + 1 ≠ UInt64.size) :
    Fetches t r rows ⟨shown.map (Row.project (t.stretch r).columns),
      some (.ofKey (first.value (t.keyOf r)))⟩

end

variable {R : Reading} {key : String} {d : Direction} {p : Row → Bool} {rows l l' : List Row}
  {a b : Row}

theorem Ranked.value_eq (ranked : R.Ranked key rows) (ha : a ∈ rows) (hb : b ∈ rows)
    (hab : (R.along key d (a.value key) (b.value key)).isLE = true)
    (hba : (R.along key d (b.value key) (a.value key)).isLE = true) : a.value key = b.value key :=
  ranked.antisymm a ha b hb (along_eq_iff.1 (Std.OrientedCmp.isLE_antisymm hab hba))

/-- **All lists of the chosen rows have the same keys in the same order.** -/
theorem Ranked.map_value_eq (ranked : R.Ranked key rows) (h : R.Lists key d p rows l)
    (h' : R.Lists key d p rows l') : l.map (·.value key) = l'.map (·.value key) := by
  have hsorted {l : List Row} (h : R.Lists key d p rows l) :
      (l.map (·.value key)).Pairwise fun v w => (R.along key d v w).isLE = true :=
    List.pairwise_map.2 h.sorted
  refine List.Perm.eq_of_pairwise ?_ (hsorted h) (hsorted h') ((h.perm.trans h'.perm.symm).map _)
  intro v w hv hw hvw hwv
  obtain ⟨a, ha, rfl⟩ := List.mem_map.1 hv
  obtain ⟨b, hb, rfl⟩ := List.mem_map.1 hw
  exact ranked.value_eq (h.mem_iff.1 ha).1 (h'.mem_iff.1 hb).1 hvw hwv

/-! ### From one call to the next -/

variable {t : Table} {r : PageRequest} {shown rest : List Row} {first : Row}

theorem Ranked.value_eq_of_mem (ranked : R.Ranked key rows)
    (h : R.Lists key d p rows (shown ++ first :: rest)) (ha : a ∈ shown) (hb : b ∈ first :: rest)
    (hba : (R.along key d (b.value key) (a.value key)).isLE = true) :
    a.value key = first.value key := by
  obtain ⟨-, hleft, hbefore⟩ := List.pairwise_append.1 h.sorted
  have hmem {row : Row} (hrow : row ∈ shown ++ first :: rest) : row ∈ rows := (h.mem_iff.1 hrow).1
  have hfirst : (R.along key d (first.value key) (b.value key)).isLE = true := by
    rcases List.mem_cons.1 hb with rfl | hb
    · exact Std.ReflCmp.isLE_rfl
    · exact (List.pairwise_cons.1 hleft).1 b hb
  exact ranked.value_eq (hmem (List.mem_append_left _ ha))
    (hmem (List.mem_append_right _ List.mem_cons_self)) (hbefore a ha first List.mem_cons_self)
    (Std.TransCmp.isLE_trans hfirst hba)

/-- **The next call lists the rows left over, after those of the page that have the key of the first
of them.** -/
theorem Ranked.lists_startingAt (ranked : R.Ranked (t.keyOf r) rows)
    (h : R.Lists (t.keyOf r) r.direction (R.inWindow t r) rows (shown ++ first :: rest)) :
    R.Lists (t.keyOf r) r.direction
      (R.inWindow t (r.startingAt (some (.ofKey (first.value (t.keyOf r)))))) rows
      (shown.filter (fun row => row.value (t.keyOf r) = first.value (t.keyOf r)) ++
        first :: rest) := by
  obtain ⟨hfirst, hwin⟩ := h.mem_iff.1 (List.mem_append_right shown List.mem_cons_self)
  have hkept := ranked.kept first hfirst
  have hresumes {row : Row} (hrow : row ∈ rows) := inWindow_startingAt_iff (t := t) (r := r)
    (c := .ofKey (first.value (t.keyOf r))) ranked.present ⟨first, hfirst, hwin, hkept.symm⟩ hrow
  rw [hkept] at hresumes
  have hlists := h.filter fun row hrow hin => ((hresumes hrow).1 hin).1
  rw [List.filter_append] at hlists
  obtain ⟨-, hleft, -⟩ := List.pairwise_append.1 h.sorted
  have hagain : shown.filter
      (R.inWindow t (r.startingAt (some (.ofKey (first.value (t.keyOf r)))))) =
        shown.filter fun row => row.value (t.keyOf r) = first.value (t.keyOf r) := by
    refine List.filter_congr fun row hrow => Bool.eq_iff_iff.2 ?_
    obtain ⟨hmem, hin⟩ := h.mem_iff.1 (List.mem_append_left _ hrow)
    rw [hresumes hmem, decide_eq_true_eq]
    refine ⟨fun hle => ranked.value_eq_of_mem h hrow List.mem_cons_self hle.2, fun heq => ?_⟩
    rw [heq]
    exact ⟨hin, Std.ReflCmp.isLE_rfl⟩
  have hrest : (first :: rest).filter
      (R.inWindow t (r.startingAt (some (.ofKey (first.value (t.keyOf r)))))) = first :: rest := by
    refine List.filter_eq_self.2 fun row hrow => ?_
    obtain ⟨hmem, hin⟩ := h.mem_iff.1 (List.mem_append_right shown hrow)
    refine (hresumes hmem).2 ⟨hin, ?_⟩
    rcases List.mem_cons.1 hrow with rfl | hrow
    · exact Std.ReflCmp.isLE_rfl
    · exact (List.pairwise_cons.1 hleft).1 row hrow
  rwa [hagain, hrest] at hlists

end Reading

/-! ### The keys of a walk that has ended -/

/-- What a walk that has ended and returned a number of rows says of the keys in its window.  On
pages of the largest size the first call is the last one. -/
structure Exhausts (limit : Nat) (keys : List Value) (returned : Nat) : Prop where
  /-- No key has more rows than a page holds. -/
  fits : limit + 1 = UInt64.size ∨ ∀ k, keys.count k ≤ limit
  /-- No row is left out. -/
  length_le : limit + 1 ≠ UInt64.size → keys.length ≤ returned
  /-- If no row is returned twice either, then every page ends between two keys. -/
  breaks : returned = keys.length →
    (limit + 1 = UInt64.size → keys.length ≤ limit) ∧ Page.Breaks limit (· ≠ ·) keys

namespace Exhausts

variable {limit returned : Nat} {keys shown rest : List Value} {k : Value}

theorem count_le (v : Value) :
    (shown.filter (· = k) ++ k :: rest).count v ≤ (shown ++ k :: rest).count v :=
  (List.filter_sublist.append_right _).count_le v

theorem single (nothing : keys.length ≤ limit ∨ limit + 1 = UInt64.size) :
    Exhausts limit keys (min limit keys.length) where
  fits := nothing.symm.imp_right fun hle _ => List.count_le_length.trans hle
  length_le hsize := Nat.le_min.2 ⟨nothing.resolve_right hsize, Nat.le_refl _⟩
  breaks hall :=
    have hle : keys.length ≤ limit := by omega
    ⟨fun _ => hle, Page.Breaks.of_length_le hle⟩

theorem cons (full : shown.length = limit) (room : limit + 1 ≠ UInt64.size) (h0 : 1 ≤ limit)
    (between : ∀ v ∈ shown, v ∈ k :: rest → v = k)
    (h : Exhausts limit (shown.filter (· = k) ++ k :: rest) returned) :
    Exhausts limit (shown ++ k :: rest) (limit + returned) where
  fits := by
    refine .inr fun v => ?_
    have hlater := h.fits.resolve_left room v
    rw [List.count_append] at hlater ⊢
    by_cases hshown : v ∈ shown
    · by_cases hv : v = k
      · rw [hv, List.count_filter (by simp)] at hlater
        rwa [hv]
      · rw [List.count_eq_zero_of_not_mem fun hrest => hv (between v hshown hrest)]
        exact List.count_le_length.trans full.le
    · rw [List.count_eq_zero_of_not_mem hshown]
      omega
  length_le _ := by
    have hlater := h.length_le room
    rw [List.length_append] at hlater ⊢
    omega
  breaks hall := by
    have hlater := h.length_le room
    rw [List.length_append, full] at hall
    rw [List.length_append] at hlater
    -- the next page begins with the row left over
    have hnew : shown.filter (· = k) = [] := List.length_eq_zero_iff.1 (by omega)
    obtain ⟨-, hbreaks⟩ := h.breaks (by rw [hnew, List.nil_append]; omega)
    rw [hnew, List.nil_append] at hbreaks
    obtain ⟨last, hlast⟩ := exists_getLast?_of_length full h0
    refine ⟨fun hsize => absurd hsize room,
      (Page.breaks_append_iff full hlast).2 ⟨?_, hbreaks⟩⟩
    simpa using List.filter_eq_nil_iff.1 hnew last (List.mem_of_getLast? hlast)

end Exhausts

namespace Reading

variable {R : Reading} {t : Table} {r : PageRequest} {rows shown rest : List Row} {first : Row}

theorem Ranked.keysInOrder_eq (ranked : R.Ranked (t.keyOf r) rows) {l : List Row}
    (h : R.Lists (t.keyOf r) r.direction (R.inWindow t r) rows l) :
    R.keysInOrder t r rows = l.map (·.value (t.keyOf r)) :=
  ranked.map_value_eq lists_visited h

theorem Ranked.keysInOrder_startingAt (ranked : R.Ranked (t.keyOf r) rows)
    (h : R.Lists (t.keyOf r) r.direction (R.inWindow t r) rows (shown ++ first :: rest)) :
    R.keysInOrder t (r.startingAt (some (.ofKey (first.value (t.keyOf r))))) rows =
      (shown.map (·.value (t.keyOf r))).filter (· = first.value (t.keyOf r)) ++
        first.value (t.keyOf r) :: rest.map (·.value (t.keyOf r)) := by
  have hnext := keysInOrder_eq
    (r := r.startingAt (some (.ofKey (first.value (t.keyOf r))))) ranked (ranked.lists_startingAt h)
  rw [hnext, List.map_append, List.filter_map]
  rfl

theorem Ranked.eq_of_mem_keys (ranked : R.Ranked (t.keyOf r) rows)
    (h : R.Lists (t.keyOf r) r.direction (R.inWindow t r) rows (shown ++ first :: rest)) :
    ∀ v ∈ shown.map (·.value (t.keyOf r)), v ∈ (first :: rest).map (·.value (t.keyOf r)) →
      v = first.value (t.keyOf r) := by
  intro v hv hleft
  obtain ⟨a, ha, rfl⟩ := List.mem_map.1 hv
  obtain ⟨b, hb, hab⟩ := List.mem_map.1 hleft
  exact ranked.value_eq_of_mem h ha hb (hab ▸ Std.ReflCmp.isLE_rfl)

theorem length_keysInOrder : (R.keysInOrder t r rows).length =
    (rows.filter (R.inWindow t r)).length := by
  rw [keysInOrder, List.length_map]
  exact lists_visited.perm.length_eq

theorem Ranked.next_of_fetches (ranked : R.Ranked (t.keyOf r) rows)
    (h0 : 1 ≤ (t.limitOf r).toNat) {page : Page} (h : R.Fetches t r rows page) {c : Cursor}
    (hc : page.next = some c) : ∃ last, (page.keys (t.keyOf r)).getLast? = some last ∧
      (R.keysInOrder t r rows)[(t.limitOf r).toNat - 1]? = some last ∧
      (R.keysInOrder t r rows)[(t.limitOf r).toNat]? = some c.value ∧
      (R.along (t.keyOf r) r.direction last c.value).isLE = true ∧
      (R.along (t.keyOf r) r.direction last c.value = .lt ↔ last ≠ c.value) := by
  cases h with
  | last => cases hc
  | @more shown rest first lists full room =>
    obtain rfl := Option.some.inj hc
    obtain ⟨last, hlast⟩ := exists_getLast?_of_length full h0
    have hshown := List.mem_of_getLast? hlast
    have hrow := (lists.mem_iff.1 (List.mem_append_left _ hshown)).1
    have hfirst := (lists.mem_iff.1 (List.mem_append_right shown List.mem_cons_self)).1
    have hle := (List.pairwise_append.1 lists.sorted).2.2 last hshown first List.mem_cons_self
    rw [ranked.kept first hfirst]
    refine ⟨last.value (t.keyOf r), ?_, ?_, ?_, hle, ?_⟩
    · rw [keys_map_project, List.getLast?_map, hlast]
      rfl
    · rw [ranked.keysInOrder_eq lists, List.getElem?_map, List.getElem?_append_left (by omega),
        ← full, ← List.getLast?_eq_getElem?, hlast]
      rfl
    · rw [ranked.keysInOrder_eq lists, List.getElem?_map, List.getElem?_append_right full.le, full,
        Nat.sub_self]
      rfl
    · constructor
      · intro hlt heq
        rw [heq, along_self] at hlt
        cases hlt
      · intro hne
        refine Std.OrientedCmp.lt_of_not_isLE fun hge => hne ?_
        exact ranked.value_eq hrow hfirst hle hge

theorem Fetches.eq_of_twins {row : Row} {page : Page} (h : R.Fetches t r [row, row] page)
    (hwin : R.inWindow t r row = true) (one : (t.limitOf r).toNat = 1) :
    page = ⟨[row.project (t.stretch r).columns], some (.ofKey (row.value (t.keyOf r)))⟩ := by
  have hboth : [row, row].filter (R.inWindow t r) = List.replicate 2 row := by
    simp [hwin, List.replicate]
  cases h with
  | last lists nothing =>
    rw [lists.perm.length_eq, hboth, List.length_replicate, one] at nothing
    exact absurd nothing (by decide)
  | @more shown rest first lists full =>
    obtain ⟨a, rfl⟩ := List.length_eq_one_iff.1 (full.trans one)
    have hperm := lists.perm
    rw [hboth, List.perm_replicate] at hperm
    obtain ⟨rfl, hperm⟩ := List.cons.inj hperm
    obtain ⟨rfl, -⟩ := List.cons.inj hperm
    rfl

theorem Ranked.filter_eq_nil (ranked : R.Ranked (t.keyOf r) rows) {last : Row}
    (h : R.Lists (t.keyOf r) r.direction (R.inWindow t r) rows (shown ++ first :: rest))
    (hlast : shown.getLast? = some last)
    (hne : last.value (t.keyOf r) ≠ first.value (t.keyOf r)) :
    shown.filter (fun row => row.value (t.keyOf r) = first.value (t.keyOf r)) = [] := by
  obtain ⟨before, rfl⟩ := List.getLast?_eq_some_iff.1 hlast
  rw [List.filter_eq_nil_iff]
  intro row hrow heq
  rw [decide_eq_true_eq] at heq
  rw [List.append_assoc, List.singleton_append] at h
  -- the last row of the page lies between this row and the first one left over
  have hbetween : row.value (t.keyOf r) = last.value (t.keyOf r) := by
    rcases List.mem_append.1 hrow with hbefore | hend
    · refine ranked.value_eq_of_mem h hbefore (List.mem_cons_of_mem _ List.mem_cons_self) ?_
      rw [heq]
      exact Std.ReflCmp.isLE_rfl
    · rw [List.mem_singleton.1 hend]
  exact hne (hbetween.symm.trans heq)

end Reading

namespace Host

variable {σ : Type} {h : Host σ} {R : Reading} {t : Table} {r : PageRequest} {rows : List Row}

theorem run_page_fetches (serves : h.Serves t.name (t.Asks r) (fun _ => rows) R.Answers)
    (overFetch : t.settings.lookahead = .overFetch) (ranked : R.Ranked (t.keyOf r) rows)
    (h0 : 1 ≤ (t.limitOf r).toNat) (x : Session σ) :
    ∃ page y, h.run (t.page r) x = (.ok page, y) ∧ R.Fetches t r rows page := by
  obtain ⟨sorted, y, hsorted, hrun, -⟩ :=
    run_overFetchedPage_lists serves (fun _ => ranked.present) x
  refine ⟨_, y, by rw [Table.page, overFetch]; exact hrun, ?_⟩
  by_cases hsize : (t.limitOf r).toNat + 1 = UInt64.size
  · rw [if_pos (.inr hsize)]
    exact .last hsorted (.inr hsize)
  rw [if_neg (not_or.2 ⟨Nat.ne_of_gt h0, hsize⟩)]
  cases hdrop : sorted.drop (t.limitOf r).toNat with
  | nil => exact .last hsorted (.inl (List.drop_eq_nil_iff.1 hdrop))
  | cons first rest =>
    have hlength := congrArg List.length hdrop
    rw [List.length_drop, List.length_cons] at hlength
    have hsplit := (List.take_append_drop (t.limitOf r).toNat sorted).symm
    rw [hdrop] at hsplit
    exact .more (hsplit ▸ hsorted) (List.length_take_of_le (by omega)) hsize

/-- **What a walk says of the keys in its window if it has ended.** -/
theorem run_walk_exhausts (serves : h.Serves t.name (t.Asks r) (fun _ => rows) R.Answers)
    (overFetch : t.settings.lookahead = .overFetch) (ranked : R.Ranked (t.keyOf r) rows)
    (h0 : 1 ≤ (t.limitOf r).toNat) (calls : Nat) (x : Session σ) :
    ∃ pages y, h.run (t.walk calls r) x = (.ok pages, y) ∧
      (Page.Ended pages → Exhausts (t.limitOf r).toNat (R.keysInOrder t r rows)
        (pages.flatMap (·.rows)).length) := by
  induction calls generalizing r x with
  | zero => exact ⟨[], x, rfl, fun hended => absurd hended Page.not_ended_nil⟩
  | succ calls ih =>
    obtain ⟨page, y, hpage, hfetches⟩ := run_page_fetches serves overFetch ranked h0 x
    cases hfetches with
    | last lists nothing =>
      refine ⟨_, y, run_walk_last hpage rfl calls, fun _ => ?_⟩
      rw [ranked.keysInOrder_eq lists, List.flatMap_singleton, List.length_map, List.length_take]
      rw [← List.length_map (·.value (t.keyOf r))] at nothing ⊢
      exact .single nothing
    | @more shown rest first lists full room =>
      obtain ⟨pages, z, hwalk, hexhausts⟩ :=
        ih (r := r.startingAt (some (.ofKey (first.value (t.keyOf r))))) serves ranked h0 y
      refine ⟨_, z, run_walk_next hpage rfl hwalk, fun hended => ?_⟩
      have hrest := hexhausts ((Page.ended_cons_iff (Option.some_ne_none _)).1 hended)
      rw [ranked.keysInOrder_startingAt lists] at hrest
      rw [ranked.keysInOrder_eq lists, List.map_append, List.flatMap_cons, List.length_append,
        List.length_map, full]
      exact .cons (by rw [List.length_map, full]) room h0 (ranked.eq_of_mem_keys lists) hrest

/-- **A walk ends if no key has more rows than a page holds.** -/
theorem exists_ended (serves : h.Serves t.name (t.Asks r) (fun _ => rows) R.Answers)
    (overFetch : t.settings.lookahead = .overFetch) (ranked : R.Ranked (t.keyOf r) rows)
    (h0 : 1 ≤ (t.limitOf r).toNat)
    (fits : (t.limitOf r).toNat + 1 = UInt64.size ∨
      ∀ k, (R.keysInOrder t r rows).count k ≤ (t.limitOf r).toNat) (x : Session σ) :
    ∃ calls pages y, h.run (t.walk calls r) x = (.ok pages, y) ∧ Page.Ended pages := by
  -- the induction is on the rows that are left; a page has room for one that the next call does
  -- not find again
  induction hn : (R.keysInOrder t r rows).length using Nat.strongRecOn generalizing r x with
  | ind n ih =>
    obtain ⟨page, y, hpage, hfetches⟩ := run_page_fetches serves overFetch ranked h0 x
    cases hfetches with
    | last => exact ⟨1, _, y, run_walk_last hpage rfl 0, Page.ended_singleton rfl⟩
    | @more shown rest first lists full room =>
      have hkeys := ranked.keysInOrder_startingAt lists
      rw [ranked.keysInOrder_eq lists, List.map_append, List.map_cons] at hn fits
      have hfits := fits.resolve_left room
      have hagain : ((shown.map (·.value (t.keyOf r))).filter
          (· = first.value (t.keyOf r))).length < shown.length := by
        have hcount := hfits (first.value (t.keyOf r))
        rw [List.count_append, List.count_cons_self, List.count_eq_length_filter] at hcount
        exact Nat.lt_of_lt_of_le (Nat.lt_of_lt_of_le (Nat.lt_succ_of_le (Nat.le_add_right _ _))
          hcount) full.ge
      have hless : (R.keysInOrder t (r.startingAt (some (.ofKey (first.value (t.keyOf r)))))
          rows).length < n := by
        rw [hkeys, ← hn, List.length_append, List.length_append, List.length_map]
        exact Nat.add_lt_add_right hagain _
      obtain ⟨calls, pages, z, hwalk, hended⟩ := ih _ hless
        (r := r.startingAt (some (.ofKey (first.value (t.keyOf r))))) serves ranked h0
        (.inr fun k => (hkeys ▸ Exhausts.count_le k).trans (hfits k)) y rfl
      exact ⟨calls + 1, _, z, run_walk_next hpage rfl hwalk,
        (Page.ended_cons_iff (Option.some_ne_none _)).2 hended⟩

/-- **A walk returns each row of its window once if every page ends between two keys.** -/
theorem exists_each_once (serves : h.Serves t.name (t.Asks r) (fun _ => rows) R.Answers)
    (overFetch : t.settings.lookahead = .overFetch) (ranked : R.Ranked (t.keyOf r) rows)
    (h0 : 1 ≤ (t.limitOf r).toNat)
    (size : (t.limitOf r).toNat + 1 = UInt64.size →
      (R.keysInOrder t r rows).length ≤ (t.limitOf r).toNat)
    (breaks : Page.Breaks (t.limitOf r).toNat (· ≠ ·) (R.keysInOrder t r rows)) (x : Session σ) :
    ∃ calls pages y, h.run (t.walk calls r) x = (.ok pages, y) ∧ Page.Ended pages ∧
      (pages.flatMap (·.rows)).Perm
        ((rows.filter (R.inWindow t r)).map (Row.project (t.stretch r).columns)) := by
  -- the induction is on the rows that are left, which the next call finds and no others
  induction hn : (R.keysInOrder t r rows).length using Nat.strongRecOn generalizing r x with
  | ind n ih =>
    obtain ⟨page, y, hpage, hfetches⟩ := run_page_fetches serves overFetch ranked h0 x
    cases hfetches with
    | @last sorted lists nothing =>
      have hlength : sorted.length ≤ (t.limitOf r).toNat := by
        rw [ranked.keysInOrder_eq lists, List.length_map] at size
        exact nothing.elim id size
      refine ⟨1, _, y, run_walk_last hpage rfl 0, Page.ended_singleton rfl, ?_⟩
      rw [List.flatMap_singleton, List.take_of_length_le hlength]
      exact lists.perm.map _
    | @more shown rest first lists full room =>
      obtain ⟨last, hlast⟩ := exists_getLast?_of_length full h0
      have hkeys := ranked.keysInOrder_startingAt lists
      rw [ranked.keysInOrder_eq lists, List.map_append, List.map_cons] at hn breaks
      obtain ⟨hne, hbreaks⟩ := (Page.breaks_append_iff (a := last.value (t.keyOf r))
        (by rw [List.length_map, full]) (by rw [List.getLast?_map, hlast]; rfl)).1 breaks
      have hnew := ranked.filter_eq_nil lists hlast hne
      have hlists := ranked.lists_startingAt lists
      rw [hnew, List.nil_append] at hlists
      rw [List.filter_map, Function.comp_def, hnew, List.map_nil, List.nil_append] at hkeys
      have hless : (R.keysInOrder t (r.startingAt (some (.ofKey (first.value (t.keyOf r)))))
          rows).length < n := by
        rw [hkeys, ← hn, List.length_append, List.length_map, full]
        omega
      obtain ⟨calls, pages, z, hwalk, hended, hperm⟩ := ih _ hless
        (r := r.startingAt (some (.ofKey (first.value (t.keyOf r))))) serves ranked h0
        (fun hsize => absurd hsize room) (hkeys ▸ hbreaks) y rfl
      refine ⟨calls + 1, _, z, run_walk_next hpage rfl hwalk,
        (Page.ended_cons_iff (Option.some_ne_none _)).2 hended, .trans ?_ (lists.perm.map _)⟩
      rw [List.flatMap_cons, List.map_append]
      exact (hperm.trans (hlists.perm.symm.map _)).append_left _

theorem run_walk_twins {row : Row}
    (serves : h.Serves t.name (t.Asks r) (fun _ => [row, row]) R.Answers)
    (overFetch : t.settings.lookahead = .overFetch) (ranked : R.Ranked (t.keyOf r) [row, row])
    (hwin : R.inWindow t r row = true) (one : (t.limitOf r).toNat = 1) (calls : Nat)
    (x : Session σ) : (h.run (t.walk calls r) x).1 = .ok (List.replicate calls
      ⟨[row.project (t.stretch r).columns], some (.ofKey (row.value (t.keyOf r)))⟩) := by
  induction calls generalizing r x with
  | zero => rfl
  | succ calls ih =>
    obtain ⟨page, y, hpage, hfetches⟩ := run_page_fetches serves overFetch ranked one.ge x
    obtain rfl := hfetches.eq_of_twins hwin one
    have hagain :
        R.inWindow t (r.startingAt (some (.ofKey (row.value (t.keyOf r))))) row = true := by
      have hkept := ranked.kept row List.mem_cons_self
      rw [Reading.inWindow_startingAt_iff ranked.present ⟨row, List.mem_cons_self, hwin, hkept.symm⟩
        List.mem_cons_self, hkept]
      exact ⟨hwin, Std.ReflCmp.isLE_rfl⟩
    have hrest := ih (r := r.startingAt (some (.ofKey (row.value (t.keyOf r))))) serves ranked
      hagain one y
    rw [run_walk_next hpage rfl (Prod.ext hrest rfl), List.replicate_succ]
    rfl

/-- **A walk that asks for one row more ends iff no key has more rows than a page holds, and it
returns each row once iff every page ends between two keys.**  The cursor of a page is never before
its last row, and past it only if the page ends so. -/
theorem walk_ends_iff_keys_fit (R : Reading) (h : Host σ) (t : Table) (r : PageRequest)
    (rows : List Row) (overFetch : t.settings.lookahead = .overFetch)
    (ranked : R.Ranked (t.keyOf r) rows)
    (serves : h.Serves t.name (t.Asks r) (fun _ => rows) R.Answers)
    (limit : 1 ≤ (t.limitOf r).toNat) (x : Session σ) :
    (∃ page y, h.run (t.page r) x = (.ok page, y) ∧
      ∀ c, page.next = some c → ∃ last, (page.keys (t.keyOf r)).getLast? = some last ∧
        (R.keysInOrder t r rows)[(t.limitOf r).toNat - 1]? = some last ∧
        (R.keysInOrder t r rows)[(t.limitOf r).toNat]? = some c.value ∧
        (R.along (t.keyOf r) r.direction last c.value).isLE = true ∧
        (R.along (t.keyOf r) r.direction last c.value = .lt ↔ last ≠ c.value)) ∧
    ((∃ calls pages, (h.run (t.walk calls r) x).1 = .ok pages ∧ Page.Ended pages) ↔
      (t.limitOf r).toNat + 1 = UInt64.size ∨
        ∀ k, (R.keysInOrder t r rows).count k ≤ (t.limitOf r).toNat) ∧
    ((∃ calls pages, (h.run (t.walk calls r) x).1 = .ok pages ∧ Page.Ended pages ∧
        (pages.flatMap (·.rows)).Perm ((rows.filter (R.inWindow t r)).map
          (Row.project (Walk.withKey (t.keyOf r) r.columns)))) ↔
      ((t.limitOf r).toNat + 1 = UInt64.size →
        (R.keysInOrder t r rows).length ≤ (t.limitOf r).toNat) ∧
      Page.Breaks (t.limitOf r).toNat (· ≠ ·) (R.keysInOrder t r rows)) := by
  have hexhausts {calls : Nat} {pages : List Page}
      (hrun : (h.run (t.walk calls r) x).1 = .ok pages) (hended : Page.Ended pages) :
      Exhausts (t.limitOf r).toNat (R.keysInOrder t r rows) (pages.flatMap (·.rows)).length := by
    obtain ⟨pages', y, hrun', hexhausts⟩ :=
      run_walk_exhausts serves overFetch ranked limit calls x
    rw [hrun'] at hrun
    obtain rfl : pages' = pages := Except.ok.inj hrun
    exact hexhausts hended
  refine ⟨?_, ⟨?_, ?_⟩, ⟨?_, ?_⟩⟩
  · obtain ⟨page, y, hpage, hfetches⟩ := run_page_fetches serves overFetch ranked limit x
    exact ⟨page, y, hpage, fun c hc => ranked.next_of_fetches limit hfetches hc⟩
  · rintro ⟨calls, pages, hrun, hended⟩
    exact (hexhausts hrun hended).fits
  · intro fits
    obtain ⟨calls, pages, y, hrun, hended⟩ := exists_ended serves overFetch ranked limit fits x
    exact ⟨calls, pages, by rw [hrun], hended⟩
  · rintro ⟨calls, pages, hrun, hended, hperm⟩
    refine (hexhausts hrun hended).breaks ?_
    rw [hperm.length_eq, List.length_map, R.length_keysInOrder]
  · rintro ⟨size, breaks⟩
    obtain ⟨calls, pages, y, hrun, hended, hperm⟩ :=
      exists_each_once serves overFetch ranked limit size breaks x
    exact ⟨calls, pages, by rw [hrun], hended, hperm⟩

/-- Pages of two rows end where two rows have the first key and one the second, and the first page
ends between the two keys. -/
theorem walk_ends_iff_keys_fit_three :
    let t : Table := ⟨"things", { lookahead := .overFetch }, by decide⟩
    let r : PageRequest := { limit := some 2, reverse := true }
    let rows : List Row := [1, 2, 1].map fun n => [("id", .integer n)]
    let h := Reading.ofIntegers.host (fun _ : Unit => rows) id
    ∃ calls pages, (h.run (t.walk calls r) { store := () }).1 = .ok pages ∧ Page.Ended pages ∧
      (pages.flatMap (·.rows)).Perm rows := by
  intro t r rows h
  have present : Row.AllHave "id" rows := by
    intro row hr
    obtain ⟨n, -, rfl⟩ := List.mem_map.1 hr
    exact ⟨.integer n, rfl, rfl⟩
  have ranked : Reading.ofIntegers.Ranked "id" rows :=
    ⟨present, by decide +kernel, by decide +kernel⟩
  have keys : Reading.ofIntegers.keysInOrder t r rows =
      [.integer 1, .integer 1, .integer 2] :=
    Reading.Ranked.keysInOrder_eq (l := [1, 1, 2].map fun n => [("id", .integer n)]) ranked
      ⟨by decide +kernel, by decide +kernel⟩
  have breaks : Page.Breaks 2 (· ≠ ·) (Reading.ofIntegers.keysInOrder t r rows) := by
    rw [keys]
    intro i a b hi ha hb
    match i with
    | 0 => exact absurd hi (by decide)
    | 1 =>
      obtain rfl := Option.some.inj ha
      obtain rfl := Option.some.inj hb
      decide
    | i + 2 => cases hb
  obtain ⟨-, -, -, hall⟩ :=
    walk_ends_iff_keys_fit Reading.ofIntegers h t r rows rfl ranked
      (Reading.serves_host _ _ _ _ _) (by decide) { store := () }
  obtain ⟨calls, pages, hrun, hended, hperm⟩ := hall ⟨nofun, breaks⟩
  refine ⟨calls, pages, hrun, hended, hperm.trans (.of_eq ?_)⟩
  decide +kernel

/-- Two rows with one key keep a walk on pages of one row from ending: every page shows one of them,
and its cursor is their key. -/
theorem walk_stalls :
    let t : Table := ⟨"things", { lookahead := .overFetch }, by decide⟩
    let r : PageRequest := { limit := some 1 }
    let row : Row := [("id", .integer 1)]
    let h := Reading.ofIntegers.host (fun _ : Unit => [row, row]) id
    Reading.ofIntegers.Ranked "id" [row, row] ∧
      h.Serves t.name (t.Asks r) (fun _ => [row, row]) Reading.ofIntegers.Answers ∧
      ∀ calls, (h.run (t.walk calls r) { store := () }).1 =
        .ok (List.replicate calls ⟨[row], some (.ofKey (.integer 1))⟩) := by
  intro t r row h
  have present : Row.AllHave "id" [row, row] := by
    intro row hr
    simp only [List.mem_cons, List.not_mem_nil, or_false, or_self] at hr
    exact ⟨.integer 1, hr ▸ rfl, rfl⟩
  have ranked : Reading.ofIntegers.Ranked "id" [row, row] :=
    ⟨present, by decide +kernel, by decide +kernel⟩
  have serves : h.Serves t.name (t.Asks r) (fun _ => [row, row]) Reading.ofIntegers.Answers :=
    Reading.serves_host _ _ _ _ _
  exact ⟨ranked, serves, fun calls =>
    run_walk_twins serves rfl ranked (by decide +kernel) (by decide) calls { store := () }⟩

end Host

end Keyset
