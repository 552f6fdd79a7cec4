import Keyset.Proofs.Walk.Call

/-!
# The walk along keys that a cursor cuts

A cursor cuts a timestamp to the beginning of its second, and the store compares what is left with
the whole of its keys.  So a cursor need not stand where its row does, and a page that follows may
begin before the row or past it.

What is said here holds of any keys that a cursor cuts to ones that are not later
(`Reading.Floored`).  The pages of a walk over a table at rest depend on the rows alone
(`Host.run_walk_pagesOf`), and each of them is judged by its last row `a` and the row `b` after it:
`Reading.Separates` says that what cursors keep of their keys tells the two pages apart.

* `Reading.Separates.next` : if so, the page leads to the one that begins with `b`.
* `Reading.separates_of_next` : a page that leads there is told apart from it.
* `Host.exists_exact_iff` : **a walk ends and returns its window, each row once and in order, iff
  its pages are told apart.**
* `Reading.pagesOf_of_not_closes` : a walk whose last row lies past the cursor at it never ends.
-/

namespace Keyset

theorem Value.isWrittenNull_wholeSecond (v : Value) :
    v.wholeSecond.isWrittenNull = v.isWrittenNull := by
  cases v <;> rfl

namespace Reading

section

variable (R : Reading)

/-- Every row has a key, no two rows have the same one, and a cursor cuts a key to one that is not
later. -/
structure Floored (key : String) (rows : List Row) : Prop where
  /-- The key is there. -/
  present : Row.AllHave key rows
  /-- The keys are pairwise distinct. -/
  distinct : R.Distinct key rows
  /-- What is left of a key is not later. -/
  floor_le : ∀ row ∈ rows, (R.cmp key (row.value key).wholeSecond (row.value key)).isLE = true

/-- The page of a call on a table at rest. -/
def restingPageOf (t : Table) (r : PageRequest) (rows : List Row) : Page :=
  match t.settings.lookahead with
  | .probe => R.probedPageOf t r rows rows
  | .overFetch => R.overFetchedPageOf t r rows

/-- The pages of a walk over a table at rest, at most as many as there are calls. -/
def pagesOf (t : Table) (rows : List Row) : Nat → PageRequest → List Page
  | 0, _ => []
  | calls + 1, r =>
    R.restingPageOf t r rows :: (R.restingPageOf t r rows).next.elim [] fun c =>
      pagesOf t rows calls (r.startingAt (some c))

/-- A call that looks past the cursor at a row finds neither the row nor one before it. -/
def Closes (look : Lookahead) (key : String) (d : Direction) (a : Row) : Prop :=
  look = .probe → (R.along key d (a.value key) (a.value key).wholeSecond).isLE = true

/-- A page that ends with a row and the page that begins with the next one are told apart by what
cursors keep of the two keys. -/
structure Separates (look : Lookahead) (key : String) (d : Direction) (a b : Row) : Prop where
  /-- The cursor at the next row is past the last one. -/
  leaves : R.along key d (a.value key) (b.value key).wholeSecond = .lt
  /-- The cursor at the next row is not past this row. -/
  arrives : (R.along key d (b.value key).wholeSecond (b.value key)).isLE = true
  /-- The page is not found again. -/
  closes : R.Closes look key d a
  /-- The next row is found past the cursor at the last one. -/
  finds : look = .probe → R.along key d (a.value key).wholeSecond (b.value key) = .lt

/-- The pages of `limit` rows each into which a list is divided are told apart. -/
structure Separated (look : Lookahead) (key : String) (d : Direction) (limit : Nat)
    (rows : List Row) : Prop where
  /-- Each page but the last one is told apart from the next one. -/
  between : ∀ i a b, limit ∣ i + 1 → rows[i]? = some a → rows[i + 1]? = some b →
    R.Separates look key d a b
  /-- The last page is not found again. -/
  last : ∀ a, rows.getLast? = some a → R.Closes look key d a

/-- The pages are those of a walk that has ended and returned the rows, each once and in order. -/
def Exact (columns : List (String × Bool)) (rows : List Row) (pages : List Page) : Prop :=
  (∃ page, pages.getLast? = some page ∧ page.next = none) ∧
    pages.flatMap (·.rows) = rows.map (Row.project columns)

end

variable {R : Reading} {t : Table} {r : PageRequest} {rows : List Row}

theorem along_isLE_of_ne_lt {key : String} {d : Direction} {v w : Value}
    (h : R.along key d v w ≠ .lt) :
    (R.along key d w v).isLE = true :=
  Std.OrientedCmp.isGE_iff_isLE.1 (Ordering.isGE_iff_ne_lt.2 h)

/-! ### Lists in the order of a walk -/

section

variable {key : String} {d : Direction} {l m front rest : List Row} {a b : Row} {p : Row → Bool}

theorem filter_suffix (hl : l.Pairwise (R.Ahead key d))
    (hp : ∀ x ∈ l, ∀ y ∈ l, R.Ahead key d x y → p x = true → p y = true) : l.filter p <:+ l := by
  induction l with
  | nil => exact List.suffix_rfl
  | cons x l ih =>
    obtain ⟨hx, hl⟩ := List.pairwise_cons.1 hl
    cases hpx : p x with
    | true =>
      have hall : (x :: l).filter p = x :: l := by
        refine List.filter_eq_self.2 fun y hy => ?_
        rcases List.mem_cons.1 hy with rfl | hy
        · exact hpx
        · exact hp x List.mem_cons_self y (List.mem_cons_of_mem x hy) (hx y hy) hpx
      exact ⟨[], hall⟩
    | false =>
      rw [List.filter_cons_of_neg (by simp [hpx])]
      refine (ih hl fun y hy z hz => ?_).trans (List.suffix_cons x l)
      exact hp y (List.mem_cons_of_mem x hy) z (List.mem_cons_of_mem x hz)

/-- A condition that the rows of a list satisfy from some row on picks the end of the list that
begins there. -/
theorem eq_of_boundary {c : Row → Prop} (hv : (front ++ a :: b :: rest).Pairwise (R.Ahead key d))
    (hl : l.Pairwise (R.Ahead key d))
    (hmem : ∀ x, x ∈ l ↔ x ∈ front ++ a :: b :: rest ∧ c x)
    (hc : ∀ x y, R.Ahead key d x y → c x → c y) (ha : ¬ c a) (hb : c b) : l = b :: rest := by
  rw [List.pairwise_append, List.pairwise_cons] at hv
  obtain ⟨-, ⟨-, htail⟩, hbefore⟩ := hv
  refine eq_of_pairwise_ahead hl htail fun x => ?_
  rw [hmem, List.mem_append, List.mem_cons (a := x) (b := a)]
  constructor
  · rintro ⟨hx | rfl | hx, hcx⟩
    · exact absurd (hc x a (hbefore x hx a List.mem_cons_self) hcx) ha
    · exact absurd hcx ha
    · exact hx
  · intro hx
    refine ⟨.inr (.inr hx), ?_⟩
    rcases List.mem_cons.1 hx with rfl | hx
    · exact hb
    · exact hc b x ((List.pairwise_cons.1 htail).1 x hx) hb

theorem mem_of_ahead (hl : (front ++ a :: rest).Pairwise (R.Ahead key d))
    (hb : b ∈ front ++ a :: rest) (hab : R.Ahead key d a b) : b ∈ rest := by
  rw [List.mem_append, List.mem_cons] at hb
  rcases hb with hb | rfl | hb
  · exact absurd ((List.pairwise_append.1 hl).2.2 b hb a List.mem_cons_self) hab.asymm
  · exact absurd hab (Ahead.irrefl b)
  · exact hb

theorem eq_of_suffix_of_suffix {whole : List Row} (hwhole : whole.Pairwise (R.Ahead key d))
    (hl : l <:+ whole) (hm : m <:+ whole)
    (hhead : l.head?.map (·.value key) = m.head?.map (·.value key)) : l = m := by
  -- the shorter end of two begins with a row past the first one of the longer end
  have hshorter {l m : List Row} (hm : m <:+ whole) (hlm : l <:+ m)
      (hhead : l.head?.map (·.value key) = m.head?.map (·.value key)) : l = m := by
    obtain ⟨front, rfl⟩ := hlm
    cases front with
    | nil => rfl
    | cons x front =>
      exfalso
      obtain ⟨y, hy, hkey⟩ := Option.map_eq_some_iff.1 hhead
      have hahead : R.Ahead key d x y := (List.pairwise_cons.1 (hwhole.sublist hm.sublist)).1 y
        (List.mem_append_right front (List.mem_of_head? hy))
      rw [Ahead, hkey, along_self] at hahead
      cases hahead
  rcases List.suffix_or_suffix_of_suffix hl hm with hlm | hml
  · exact hshorter hm hlm hhead
  · exact (hshorter hl hml hhead.symm).symm

theorem exists_page {limit : Nat} (h0 : 1 ≤ limit) (hl : limit < l.length) :
    ∃ a b rest, (l.take limit).getLast? = some a ∧ l.drop limit = b :: rest := by
  obtain ⟨a, ha⟩ := exists_getLast?_take h0 (List.ne_nil_of_length_pos (by omega : 0 < l.length))
  cases hrest : l.drop limit with
  | nil =>
    rw [List.drop_eq_nil_iff] at hrest
    omega
  | cons b rest => exact ⟨a, b, rest, ha, rfl⟩

theorem Separated.of_length_le {look : Lookahead} {limit : Nat} (hlen : l.length ≤ limit)
    (hlast : ∀ a, l.getLast? = some a → R.Closes look key d a) :
    R.Separated look key d limit l where
  between := Page.Breaks.of_length_le hlen
  last := hlast

theorem separated_append_iff {look : Lookahead} {limit : Nat} {shown : List Row}
    (hlen : shown.length = limit) (hlast : shown.getLast? = some a) :
    R.Separated look key d limit (shown ++ b :: rest) ↔
      R.Separates look key d a b ∧ R.Separated look key d limit (b :: rest) := by
  have hend : (shown ++ b :: rest).getLast? = (b :: rest).getLast? := by
    rw [List.getLast?_append_of_ne_nil _ (List.cons_ne_nil b rest)]
  constructor
  · intro h
    obtain ⟨hab, hbetween⟩ := (Page.breaks_append_iff hlen hlast).1 h.between
    exact ⟨hab, hbetween, fun x hx => h.last x (hend.trans hx)⟩
  · rintro ⟨hab, h⟩
    exact ⟨(Page.breaks_append_iff hlen hlast).2 ⟨hab, h.between⟩,
      fun x hx => h.last x (hend.symm.trans hx)⟩

end

/-! ### The rows of a walk -/

section

variable {a b p : Row} {front rest : List Row}

theorem visited_eq_filter (distinct : R.Distinct (t.keyOf r) rows) :
    R.visited t r rows = (R.visited t (r.startingAt none) rows).filter (R.inWindow t r) :=
  lists_visited.eq_of_distinct distinct <|
    (lists_visited (r := r.startingAt none)).filter fun _ _ hrow => (inWindow_iff.1 hrow).1

theorem inWindow_of_ahead (keys : Row.AllHave (t.keyOf r) rows)
    (ha : a ∈ R.visited t (r.startingAt none) rows) (hb : b ∈ R.visited t (r.startingAt none) rows)
    (hab : R.Ahead (t.keyOf r) r.direction a b) (hwin : R.inWindow t r a = true) :
    R.inWindow t r b = true := by
  obtain ⟨harow, -⟩ := mem_visited.1 ha
  obtain ⟨hbrow, hbwin⟩ := mem_visited.1 hb
  refine inWindow_iff.2 ⟨hbwin, fun c hc => ?_⟩
  exact reaches_of_isLE (keys.isNull harow) (keys.isNull hbrow) ((inWindow_iff.1 hwin).2 c hc)
    hab.isLE

namespace Floored

variable (floored : R.Floored (t.keyOf r) rows)

include floored

theorem pairwise_visited (since : Option Cursor) :
    (R.visited t (r.startingAt since) rows).Pairwise (R.Ahead (t.keyOf r) r.direction) :=
  (lists_visited (r := r.startingAt since)).pairwise_ahead floored.distinct

/-- Along a walk no cut key comes later than the whole one, or none comes earlier. -/
theorem along_floor (d : Direction) :
    (∀ row ∈ rows,
      (R.along (t.keyOf r) d (row.value (t.keyOf r)).wholeSecond (row.value (t.keyOf r))).isLE =
      true) ∨
    (∀ row ∈ rows,
      (R.along (t.keyOf r) d (row.value (t.keyOf r)) (row.value (t.keyOf r)).wholeSecond).isLE =
      true) := by
  cases d with
  | ascending => exact .inl floored.floor_le
  | descending =>
    refine .inr fun row hrow => ?_
    rw [along, Direction.orient, Ordering.isLE_swap, Std.OrientedCmp.isGE_iff_isLE]
    exact floored.floor_le row hrow

/-- **A walk that resumes somewhere visits an end of the whole walk.** -/
theorem visited_suffix : R.visited t r rows <:+ R.visited t (r.startingAt none) rows := by
  rw [visited_eq_filter floored.distinct]
  refine filter_suffix (floored.pairwise_visited none) fun a ha b hb => ?_
  exact inWindow_of_ahead floored.present ha hb

theorem isWrittenNull_wholeSecond (ha : a ∈ rows) :
    (a.value (t.keyOf r)).wholeSecond.isWrittenNull = false := by
  rw [Value.isWrittenNull_wholeSecond]
  exact floored.present.isWrittenNull ha

theorem mem_visited_startingAt (ha : a ∈ rows) :
    b ∈ R.visited t (r.startingAt (some (.ofKey (a.value (t.keyOf r))))) rows ↔
      b ∈ R.visited t (r.startingAt none) rows ∧
        (R.along (t.keyOf r) r.direction (a.value (t.keyOf r)).wholeSecond
          (b.value (t.keyOf r))).isLE = true := by
  rw [mem_visited, mem_visited, and_assoc, inWindow_iff]
  refine and_congr_right fun hb => and_congr_right fun _ => ?_
  simp only [PageRequest.since_startingAt, Option.some.injEq, forall_eq',
    PageRequest.direction_startingAt, Table.keyOf_startingAt]
  rw [reaches_iff (floored.present.isNull hb), Std.OrientedCmp.isGE_iff_isLE]
  exact and_iff_right (floored.isWrittenNull_wholeSecond ha)

theorem mem_beyond_wholeSecond (ha : a ∈ rows) :
    b ∈ R.beyond t r (a.value (t.keyOf r)).wholeSecond rows ↔
      b ∈ R.visited t (r.startingAt none) rows ∧
        R.along (t.keyOf r) r.direction (a.value (t.keyOf r)).wholeSecond
          (b.value (t.keyOf r)) = .lt := by
  rw [mem_beyond, mem_visited, and_assoc]
  refine and_congr_right fun hb => and_congr_right fun _ => ?_
  rw [passes_iff (floored.present.isNull hb), Std.OrientedCmp.gt_iff_lt]
  exact and_iff_right (floored.isWrittenNull_wholeSecond ha)

theorem exists_visited_eq {shown : List Row} (hv : R.visited t r rows = shown ++ rest)
    (hlast : shown.getLast? = some a) :
    ∃ front, R.visited t (r.startingAt none) rows = front ++ a :: rest := by
  obtain ⟨before, hbefore⟩ := visited_suffix floored
  obtain ⟨init, rfl⟩ := List.getLast?_eq_some_iff.1 hlast
  refine ⟨before ++ init, ?_⟩
  rw [← hbefore, hv]
  simp

end Floored

/-! ### The pages of a walk -/

theorem rows_restingPageOf : (R.restingPageOf t r rows).rows =
    ((R.visited t r rows).take (t.limitOf r).toNat).map (Row.project (t.stretch r).columns) := by
  rw [restingPageOf]
  cases t.settings.lookahead <;> rfl

theorem next_of_overFetch (look : t.settings.lookahead = .overFetch)
    (h0 : 1 ≤ (t.limitOf r).toNat) : (R.restingPageOf t r rows).next =
      ((R.visited t r rows).drop (t.limitOf r).toNat).head?.map fun row =>
        .ofKey (row.value (t.keyOf r)) := by
  simp only [restingPageOf, look, overFetchedPageOf, if_neg (Nat.ne_of_gt h0)]

theorem next_of_probe (look : t.settings.lookahead = .probe) : (R.restingPageOf t r rows).next =
      ((R.visited t r rows).take (t.limitOf r).toNat).getLast?.bind fun last =>
        (R.beyond t r (last.value (t.keyOf r)).wholeSecond rows).head?.map fun row =>
          .ofKey (row.value (t.keyOf r)) := by
  simp only [restingPageOf, look]
  rfl

/-- **A page that is told apart from the next one leads to it.** -/
theorem Separates.next (floored : R.Floored (t.keyOf r) rows) (h0 : 1 ≤ (t.limitOf r).toNat)
    (h : R.Separates t.settings.lookahead (t.keyOf r) r.direction a b) {shown : List Row}
    (hv : R.visited t r rows = shown ++ b :: rest) (hlen : shown.length = (t.limitOf r).toNat)
    (hlast : shown.getLast? = some a) :
    (R.restingPageOf t r rows).next = some (.ofKey (b.value (t.keyOf r))) ∧
      R.visited t (r.startingAt (some (.ofKey (b.value (t.keyOf r))))) rows = b :: rest := by
  have hmem {x : Row} (hx : x ∈ shown ++ b :: rest) : x ∈ rows :=
    (mem_visited.1 (hv.symm ▸ hx)).1
  have ha : a ∈ rows := hmem (List.mem_append_left _ (List.mem_of_getLast? hlast))
  have hb : b ∈ rows := hmem (List.mem_append_right _ List.mem_cons_self)
  obtain ⟨front, hfront⟩ := floored.exists_visited_eq hv hlast
  have hsorted := floored.pairwise_visited none
  rw [hfront] at hsorted
  constructor
  · cases look : t.settings.lookahead with
    | overFetch => rw [next_of_overFetch look h0, hv, List.drop_left' hlen]; rfl
    | probe =>
      have hbeyond : R.beyond t r (a.value (t.keyOf r)).wholeSecond rows = b :: rest := by
        refine eq_of_boundary (c := fun x => R.along (t.keyOf r) r.direction
            (a.value (t.keyOf r)).wholeSecond (x.value (t.keyOf r)) = .lt)
          hsorted ((lists_beyond _).pairwise_ahead floored.distinct) (fun x => ?_)
          (fun x y hxy hx => Std.TransCmp.lt_trans hx hxy)
          (Std.OrientedCmp.not_lt_of_isLE (h.closes look)) (h.finds look)
        rw [floored.mem_beyond_wholeSecond ha, hfront]
      rw [next_of_probe look, hv, List.take_left' hlen, hlast, Option.bind_some, hbeyond]
      rfl
  · refine eq_of_boundary (c := fun x => (R.along (t.keyOf r) r.direction
          (b.value (t.keyOf r)).wholeSecond (x.value (t.keyOf r))).isLE = true)
      hsorted (floored.pairwise_visited _) (fun x => ?_)
      (fun x y hxy hx => Std.TransCmp.isLE_trans hx hxy.isLE)
      (Std.OrientedCmp.not_isLE_of_lt h.leaves) h.arrives
    rw [floored.mem_visited_startingAt hb, hfront]

theorem next_eq_none (floored : R.Floored (t.keyOf r) rows) (h0 : 1 ≤ (t.limitOf r).toNat)
    (hlen : (R.visited t r rows).length ≤ (t.limitOf r).toNat)
    (hlast : ∀ a, (R.visited t r rows).getLast? = some a →
      R.Closes t.settings.lookahead (t.keyOf r) r.direction a) :
    (R.restingPageOf t r rows).next = none := by
  cases look : t.settings.lookahead with
  | overFetch => rw [next_of_overFetch look h0, List.drop_eq_nil_of_le hlen]; rfl
  | probe =>
    rw [next_of_probe look, List.take_of_length_le hlen, Option.bind_eq_none_iff]
    intro a ha
    have harow : a ∈ rows := (mem_visited.1 (List.mem_of_getLast? ha)).1
    obtain ⟨front, hfront⟩ := floored.exists_visited_eq (List.append_nil _).symm ha
    have hnil : R.beyond t r (a.value (t.keyOf r)).wholeSecond rows = [] := by
      refine List.eq_nil_iff_forall_not_mem.2 fun x hx => ?_
      obtain ⟨hx, hlt⟩ := (floored.mem_beyond_wholeSecond harow).1 hx
      have hsorted := floored.pairwise_visited none
      rw [hfront] at hsorted hx
      have hahead : R.Ahead (t.keyOf r) r.direction a x :=
        Std.TransCmp.lt_of_isLE_of_lt (hlast a ha look) hlt
      exact List.not_mem_nil (mem_of_ahead hsorted hx hahead)
    rw [hnil]
    rfl

theorem closes_of_next (floored : R.Floored (t.keyOf r) rows)
    (hlen : (R.visited t r rows).length ≤ (t.limitOf r).toNat)
    (hnext : (R.restingPageOf t r rows).next = none)
    (ha : (R.visited t r rows).getLast? = some a) :
    R.Closes t.settings.lookahead (t.keyOf r) r.direction a := by
  intro look
  have harow : a ∈ rows := (mem_visited.1 (List.mem_of_getLast? ha)).1
  rw [next_of_probe look, List.take_of_length_le hlen, ha, Option.bind_some,
    Option.map_eq_none_iff, List.head?_eq_none_iff] at hnext
  have hnot : a ∉ R.beyond t r (a.value (t.keyOf r)).wholeSecond rows := by
    rw [hnext]
    exact List.not_mem_nil
  rw [floored.mem_beyond_wholeSecond harow] at hnot
  have hmem := floored.visited_suffix.subset (List.mem_of_getLast? ha)
  exact along_isLE_of_ne_lt fun hlt => hnot ⟨hmem, hlt⟩

section

variable {shown : List Row}

theorem along_of_startingAt_eq (floored : R.Floored (t.keyOf r) rows)
    (hv : R.visited t r rows = shown ++ rest) (hlast : shown.getLast? = some a) (hp : p ∈ rows)
    (hleft : R.visited t (r.startingAt (some (.ofKey (p.value (t.keyOf r))))) rows = rest) :
    R.along (t.keyOf r) r.direction (a.value (t.keyOf r))
      (p.value (t.keyOf r)).wholeSecond = .lt := by
  obtain ⟨front, hfront⟩ := floored.exists_visited_eq hv hlast
  have hsorted := floored.pairwise_visited none
  refine Std.OrientedCmp.lt_of_not_isLE fun hle => ?_
  have hmem : a ∈ rest := by
    rw [← hleft, floored.mem_visited_startingAt hp, hfront]
    exact ⟨List.mem_append_right front List.mem_cons_self, hle⟩
  rw [hfront, List.pairwise_append, List.pairwise_cons] at hsorted
  exact Ahead.irrefl a (hsorted.2.1.1 a hmem)

theorem arrives_of_startingAt_eq (floored : R.Floored (t.keyOf r) rows) (hb : b ∈ rows)
    (hleft : R.visited t (r.startingAt (some (.ofKey (b.value (t.keyOf r))))) rows = b :: rest) :
    (R.along (t.keyOf r) r.direction (b.value (t.keyOf r)).wholeSecond
      (b.value (t.keyOf r))).isLE = true :=
  ((floored.mem_visited_startingAt hb).1 (hleft ▸ List.mem_cons_self)).2

theorem closes_of_beyond (floored : R.Floored (t.keyOf r) rows)
    (hv : R.visited t r rows = shown ++ rest) (hlast : shown.getLast? = some a)
    (hp : (R.beyond t r (a.value (t.keyOf r)).wholeSecond rows).head? = some p)
    (hleft : R.visited t (r.startingAt (some (.ofKey (p.value (t.keyOf r))))) rows = rest) :
    (R.along (t.keyOf r) r.direction (a.value (t.keyOf r))
      (a.value (t.keyOf r)).wholeSecond).isLE = true := by
  have ha : a ∈ R.visited t r rows :=
    hv ▸ List.mem_append_left rest (List.mem_of_getLast? hlast)
  have harow : a ∈ rows := (mem_visited.1 ha).1
  have hprow : p ∈ rows := (mem_beyond.1 (List.mem_of_head? hp)).1
  refine along_isLE_of_ne_lt fun hlt => ?_
  rcases floored.along_floor r.direction with hfloor | hfloor
  · -- the row found would not be past the last one, so neither would the cursor at it be
    have hfound := (floored.mem_beyond_wholeSecond harow).2 ⟨floored.visited_suffix.subset ha, hlt⟩
    have hle := Std.TransCmp.isLE_trans (hfloor p hprow) ((lists_beyond _).isLE_head hp hfound)
    exact Std.OrientedCmp.not_lt_of_isLE hle
      (along_of_startingAt_eq floored hv hlast hprow hleft)
  · exact Std.OrientedCmp.not_lt_of_isLE (hfloor a harow) hlt

/-- The row found past the cursor at the last row of a page is the next one, if it leads to what the
page left over. -/
theorem head?_of_beyond (floored : R.Floored (t.keyOf r) rows)
    (hv : R.visited t r rows = shown ++ rest) (hlast : shown.getLast? = some a)
    (hp : (R.beyond t r (a.value (t.keyOf r)).wholeSecond rows).head? = some p)
    (hleft : R.visited t (r.startingAt (some (.ofKey (p.value (t.keyOf r))))) rows = rest) :
    rest.head? = some p := by
  have ha : a ∈ R.visited t r rows :=
    hv ▸ List.mem_append_left rest (List.mem_of_getLast? hlast)
  have harow : a ∈ rows := (mem_visited.1 ha).1
  have hfound {x : Row} := floored.mem_beyond_wholeSecond harow (b := x)
  obtain ⟨hpall, hpast⟩ := hfound.1 (List.mem_of_head? hp)
  have hprow : p ∈ rows := (mem_visited.1 hpall).1
  have hsorted := floored.pairwise_visited r.since
  rw [PageRequest.startingAt_since, hv] at hsorted
  -- the row found is past the page, and it is not past the next row
  obtain ⟨front, hfront⟩ := floored.exists_visited_eq hv hlast
  have hprest : p ∈ rest := by
    have hcloses := closes_of_beyond floored hv hlast hp hleft
    refine mem_of_ahead (hfront ▸ floored.pairwise_visited none) (hfront ▸ hpall) ?_
    exact Std.TransCmp.lt_of_isLE_of_lt hcloses hpast
  cases rest with
  | nil => cases hprest
  | cons b rest =>
    have hab : R.Ahead (t.keyOf r) r.direction a b :=
      (List.pairwise_append.1 hsorted).2.2 a (List.mem_of_getLast? hlast) b List.mem_cons_self
    have hb : b ∈ R.visited t r rows := hv ▸ List.mem_append_right shown List.mem_cons_self
    have hpb := ((floored.mem_visited_startingAt hprow).1 (hleft ▸ List.mem_cons_self)).2
    have hbfound : b ∈ R.beyond t r (a.value (t.keyOf r)).wholeSecond rows := by
      refine hfound.2 ⟨floored.visited_suffix.subset hb, by_contra fun hne => ?_⟩
      have hba := along_isLE_of_ne_lt hne
      rcases floored.along_floor r.direction with hfloor | hfloor
      · have hle := Std.TransCmp.isLE_trans hba (hfloor a harow)
        exact hab.not_isLE hle
      · have hle := Std.TransCmp.isLE_trans (hfloor p hprow) (Std.TransCmp.isLE_trans hpb hba)
        exact Std.OrientedCmp.not_lt_of_isLE hle hpast
    rcases List.mem_cons.1 hprest with rfl | hprest
    · rfl
    · have hbp := (List.pairwise_cons.1 (List.pairwise_append.1 hsorted).2.1).1 p hprest
      exact absurd ((lists_beyond _).isLE_head hp hbfound) hbp.not_isLE

end

/-- **A page that leads to the next one is told apart from it.** -/
theorem separates_of_next (floored : R.Floored (t.keyOf r) rows) (h0 : 1 ≤ (t.limitOf r).toNat)
    {c : Cursor} (hnext : (R.restingPageOf t r rows).next = some c)
    (hleft : R.visited t (r.startingAt (some c)) rows =
      (R.visited t r rows).drop (t.limitOf r).toNat) :
    ∃ a b rest, ((R.visited t r rows).take (t.limitOf r).toNat).getLast? = some a ∧
      (R.visited t r rows).drop (t.limitOf r).toNat = b :: rest ∧
      R.Separates t.settings.lookahead (t.keyOf r) r.direction a b := by
  have hv := (List.take_append_drop (t.limitOf r).toNat (R.visited t r rows)).symm
  cases look : t.settings.lookahead with
  | overFetch =>
    rw [next_of_overFetch look h0] at hnext
    obtain ⟨b, hb, rfl⟩ := Option.map_eq_some_iff.1 hnext
    have hbrow : b ∈ rows := (mem_visited.1 (List.mem_of_mem_drop (List.mem_of_head? hb))).1
    have hlt : (t.limitOf r).toNat < (R.visited t r rows).length := by
      have hpos := List.length_pos_of_mem (List.mem_of_head? hb)
      rw [List.length_drop] at hpos
      omega
    obtain ⟨a, next, rest, ha, hrest⟩ := exists_page h0 hlt
    rw [hrest] at hv hleft hb
    obtain rfl : next = b := Option.some.inj hb
    exact ⟨a, next, rest, ha, hrest, along_of_startingAt_eq floored hv ha hbrow hleft,
      arrives_of_startingAt_eq floored hbrow hleft, nofun, nofun⟩
  | probe =>
    rw [next_of_probe look] at hnext
    obtain ⟨a, ha, hfound⟩ := Option.bind_eq_some_iff.1 hnext
    obtain ⟨b, hb, rfl⟩ := Option.map_eq_some_iff.1 hfound
    have harow : a ∈ rows := (mem_visited.1 (List.mem_of_mem_take (List.mem_of_getLast? ha))).1
    have hpast := (floored.mem_beyond_wholeSecond harow).1 (List.mem_of_head? hb)
    have hbrow : b ∈ rows := (mem_visited.1 hpast.1).1
    have hcloses := closes_of_beyond floored hv ha hb hleft
    obtain ⟨rest, hrest⟩ := List.head?_eq_some_iff.1 (head?_of_beyond floored hv ha hb hleft)
    rw [hrest] at hv hleft
    exact ⟨a, b, rest, ha, hrest, along_of_startingAt_eq floored hv ha hbrow hleft,
      arrives_of_startingAt_eq floored hbrow hleft, fun _ => hcloses, fun _ => hpast.2⟩

/-! ### The pages of the calls -/

theorem pagesOf_of_next_eq_none (hnext : (R.restingPageOf t r rows).next = none) (calls : Nat) :
    R.pagesOf t rows (calls + 1) r = [R.restingPageOf t r rows] := by
  rw [pagesOf, hnext]
  rfl

theorem pagesOf_of_next_eq_some {c : Cursor} (hnext : (R.restingPageOf t r rows).next = some c)
    (calls : Nat) : R.pagesOf t rows (calls + 1) r =
      R.restingPageOf t r rows :: R.pagesOf t rows calls (r.startingAt (some c)) := by
  rw [pagesOf, hnext]
  rfl

section

variable {columns : List (String × Bool)} {whole : List Row} {limit : Nat} {page : Page}
  {pages : List Page}

theorem exact_singleton_iff (hrows : page.rows = (whole.take limit).map (Row.project columns))
    (hnext : page.next = none) : Exact columns whole [page] ↔ whole.length ≤ limit := by
  rw [Exact, List.flatMap_singleton, hrows]
  constructor
  · rintro ⟨-, hall⟩
    have hlength := congrArg List.length hall
    rw [List.length_map, List.length_map, List.length_take] at hlength
    omega
  · intro hle
    exact ⟨⟨page, rfl, hnext⟩, by rw [List.take_of_length_le hle]⟩

theorem exact_cons_iff (hrows : page.rows = (whole.take limit).map (Row.project columns))
    (hnext : page.next ≠ none) :
    Exact columns whole (page :: pages) ↔ Exact columns (whole.drop limit) pages := by
  have hends : (∃ last, (page :: pages).getLast? = some last ∧ last.next = none) ↔
      ∃ last, pages.getLast? = some last ∧ last.next = none := Page.ended_cons_iff hnext
  have hsplit : whole.map (Row.project columns) =
      (whole.take limit).map (Row.project columns) ++
        (whole.drop limit).map (Row.project columns) := by
    rw [← List.map_append, List.take_append_drop]
  rw [Exact, Exact, hends, List.flatMap_cons, hrows, hsplit, List.append_cancel_left_eq]

end

theorem head?_of_exact (floored : R.Floored (t.keyOf r) rows) (h0 : 1 ≤ (t.limitOf r).toNat)
    {calls : Nat} (exact : Exact (t.stretch r).columns rest (R.pagesOf t rows calls r)) :
    (R.visited t r rows).head?.map (·.value (t.keyOf r)) =
      rest.head?.map (·.value (t.keyOf r)) := by
  obtain ⟨⟨page, hlast, -⟩, hrows⟩ := exact
  cases calls with
  | zero => cases hlast
  | succ calls =>
    cases hvisited : R.visited t r rows with
    | nil =>
      have hnext := next_eq_none floored h0 (by simp [hvisited]) (by simp [hvisited])
      rw [pagesOf_of_next_eq_none hnext, List.flatMap_singleton, rows_restingPageOf, hvisited,
        List.take_nil, List.map_nil, eq_comm, List.map_eq_nil_iff] at hrows
      rw [hrows]
    | cons x visited =>
      have htake : (x :: visited).take (t.limitOf r).toNat =
          x :: visited.take ((t.limitOf r).toNat - 1) := by
        rw [← Nat.sub_add_cancel h0, List.take_succ_cons, Nat.add_sub_cancel]
      rw [pagesOf, List.flatMap_cons, rows_restingPageOf, hvisited, htake, List.map_cons] at hrows
      obtain ⟨y, rest', rfl, hxy, -⟩ := List.map_eq_cons_iff.1 hrows.symm
      have hkey := congrArg (·.value (t.keyOf r)) hxy
      simp only [Table.value_project_stretch] at hkey
      simp [hkey]

/-- A walk that ends and returns its window tells the pages apart. -/
theorem separated_of_exact (floored : R.Floored (t.keyOf r) rows) (h0 : 1 ≤ (t.limitOf r).toNat)
    {calls : Nat} (exact : Exact (t.stretch r).columns (R.visited t r rows)
      (R.pagesOf t rows calls r)) :
    R.Separated t.settings.lookahead (t.keyOf r) r.direction (t.limitOf r).toNat
      (R.visited t r rows) := by
  -- the induction is on the calls, over all requests, since each call changes the resume point
  induction calls generalizing r with
  | zero =>
    obtain ⟨⟨page, hlast, -⟩, -⟩ := exact
    cases hlast
  | succ calls ih =>
    cases hnext : (R.restingPageOf t r rows).next with
    | none =>
      rw [pagesOf_of_next_eq_none hnext] at exact
      have hlen := (exact_singleton_iff rows_restingPageOf hnext).1 exact
      exact .of_length_le hlen fun a ha => closes_of_next floored hlen hnext ha
    | some c =>
      rw [pagesOf_of_next_eq_some hnext, exact_cons_iff rows_restingPageOf (by simp [hnext])]
        at exact
      have hend := (List.drop_suffix (t.limitOf r).toNat (R.visited t r rows)).trans
        floored.visited_suffix
      have hleft := eq_of_suffix_of_suffix (floored.pairwise_visited none)
        (floored.visited_suffix (r := r.startingAt (some c))) hend
        (head?_of_exact (r := r.startingAt (some c)) floored h0 exact)
      obtain ⟨a, b, rest, ha, hrest, hab⟩ := separates_of_next floored h0 hnext hleft
      have hseparated := ih (r := r.startingAt (some c)) floored h0 (hleft ▸ exact)
      rw [hleft, hrest] at hseparated
      rw [← List.take_append_drop (t.limitOf r).toNat (R.visited t r rows), hrest]
      refine (separated_append_iff (List.length_take_of_le ?_) ha).2 ⟨hab, hseparated⟩
      have hlong := congrArg List.length hrest
      rw [List.length_drop, List.length_cons] at hlong
      omega

theorem exists_exact (floored : R.Floored (t.keyOf r) rows) (h0 : 1 ≤ (t.limitOf r).toNat)
    (separated : R.Separated t.settings.lookahead (t.keyOf r) r.direction (t.limitOf r).toNat
      (R.visited t r rows)) :
    ∃ calls, Exact (t.stretch r).columns (R.visited t r rows) (R.pagesOf t rows calls r) := by
  -- the induction is on the rows that are left to the walk
  induction hn : (R.visited t r rows).length using Nat.strongRecOn generalizing r with
  | ind n ih =>
    rcases Nat.lt_or_ge (t.limitOf r).toNat (R.visited t r rows).length with hlt | hle
    · obtain ⟨a, b, rest, ha, hrest⟩ := exists_page h0 hlt
      have hv := (List.take_append_drop (t.limitOf r).toNat (R.visited t r rows)).symm
      rw [hrest] at hv
      have hlen := List.length_take_of_le hlt.le
      rw [hv, separated_append_iff hlen ha] at separated
      obtain ⟨hab, hseparated⟩ := separated
      obtain ⟨hnext, hleft⟩ := hab.next floored h0 hv hlen ha
      have hless : (b :: rest).length < n := by
        rw [← hrest, List.length_drop]
        omega
      rw [← hleft] at hseparated hless hrest
      obtain ⟨calls, hexact⟩ := ih _ hless
        (r := r.startingAt (some (.ofKey (b.value (t.keyOf r))))) floored h0 hseparated rfl
      refine ⟨calls + 1, ?_⟩
      rw [pagesOf_of_next_eq_some hnext, exact_cons_iff rows_restingPageOf (by simp [hnext]), hrest]
      exact hexact
    · have hnext := next_eq_none floored h0 hle separated.last
      refine ⟨1, ?_⟩
      rw [pagesOf_of_next_eq_none hnext]
      exact (exact_singleton_iff rows_restingPageOf hnext).2 hle

theorem isLE_of_past (floored : R.Floored (t.keyOf r) rows) (ha : a ∈ rows)
    (hpast : R.along (t.keyOf r) r.direction (a.value (t.keyOf r)).wholeSecond
      (a.value (t.keyOf r)) = .lt)
    (hb : b ∈ rows) :
    (R.along (t.keyOf r) r.direction (b.value (t.keyOf r)).wholeSecond
      (b.value (t.keyOf r))).isLE = true := by
  have hfloor := (floored.along_floor r.direction).resolve_right fun h =>
    Std.OrientedCmp.not_lt_of_isLE (h a ha) hpast
  exact hfloor b hb

theorem mem_beyond_of_getLast? (floored : R.Floored (t.keyOf r) rows)
    (hlast : (R.visited t r rows).getLast? = some a)
    (hpast : R.along (t.keyOf r) r.direction (a.value (t.keyOf r)).wholeSecond
      (a.value (t.keyOf r)) = .lt)
    (hb : b ∈ R.visited t r rows) : a ∈ R.beyond t r (b.value (t.keyOf r)).wholeSecond rows := by
  have ha := List.mem_of_getLast? hlast
  have hbrow : b ∈ rows := (mem_visited.1 hb).1
  have hle := isLE_of_past floored (mem_visited.1 ha).1 hpast hbrow
  refine (floored.mem_beyond_wholeSecond hbrow).2 ⟨floored.visited_suffix.subset ha, ?_⟩
  obtain ⟨before, hbefore⟩ := List.getLast?_eq_some_iff.1 hlast
  have hsorted := floored.pairwise_visited r.since
  rw [PageRequest.startingAt_since, hbefore, List.pairwise_append] at hsorted
  rw [hbefore, List.mem_append, List.mem_singleton] at hb
  rcases hb with hb | rfl
  · exact Std.TransCmp.lt_of_isLE_of_lt hle (hsorted.2.2 b hb a (List.mem_singleton_self a))
  · exact hpast

/-- A page of such a walk leads on, and the last row is left to the walk. -/
theorem next_of_not_closes (floored : R.Floored (t.keyOf r) rows) (h0 : 1 ≤ (t.limitOf r).toNat)
    (hlast : (R.visited t r rows).getLast? = some a)
    (hopen : ¬ R.Closes t.settings.lookahead (t.keyOf r) r.direction a) :
    ∃ c, (R.restingPageOf t r rows).next = some c ∧
      (R.visited t (r.startingAt (some c)) rows).getLast? = some a := by
  obtain ⟨look, hopen⟩ := Classical.not_imp.1 hopen
  have hpast := Std.OrientedCmp.lt_of_not_isLE hopen
  have ha := List.mem_of_getLast? hlast
  obtain ⟨shown, hshown⟩ := exists_getLast?_take h0 (List.ne_nil_of_mem ha)
  have hfound := mem_beyond_of_getLast? floored hlast hpast
    (List.mem_of_mem_take (List.mem_of_getLast? hshown))
  obtain ⟨p, hp⟩ := Option.isSome_iff_exists.1 (List.isSome_head?.2 (List.ne_nil_of_mem hfound))
  have hprow : p ∈ rows := (mem_beyond.1 (List.mem_of_head? hp)).1
  refine ⟨.ofKey (p.value (t.keyOf r)), ?_, ?_⟩
  · rw [next_of_probe look, hshown, Option.bind_some, hp]
    rfl
  · have hle := isLE_of_past floored (mem_visited.1 ha).1 hpast hprow
    have hleft : a ∈ R.visited t (r.startingAt (some (.ofKey (p.value (t.keyOf r))))) rows :=
      (floored.mem_visited_startingAt hprow).2 ⟨floored.visited_suffix.subset ha,
        Std.TransCmp.isLE_trans hle ((lists_beyond _).isLE_head hp hfound)⟩
    -- the walk that goes on has the end of the whole walk, as this one has
    obtain ⟨front, hfront⟩ := floored.exists_visited_eq (List.append_nil _).symm hlast
    obtain ⟨before, hbefore⟩ := floored.visited_suffix
      (r := r.startingAt (some (.ofKey (p.value (t.keyOf r)))))
    have hend := congrArg List.getLast? (hbefore.trans hfront)
    rwa [List.getLast?_append_of_ne_nil _ (List.ne_nil_of_mem hleft), List.getLast?_concat] at hend

/-- **A walk whose last row lies past the cursor at it never ends.** -/
theorem pagesOf_of_not_closes (floored : R.Floored (t.keyOf r) rows) (h0 : 1 ≤ (t.limitOf r).toNat)
    (hlast : (R.visited t r rows).getLast? = some a)
    (hopen : ¬ R.Closes t.settings.lookahead (t.keyOf r) r.direction a) (calls : Nat) :
    (R.pagesOf t rows calls r).length = calls ∧
      ∀ page ∈ R.pagesOf t rows calls r, page.next.isSome = true := by
  induction calls generalizing r with
  | zero => simp [pagesOf]
  | succ calls ih =>
    obtain ⟨c, hnext, hlast'⟩ := next_of_not_closes floored h0 hlast hopen
    obtain ⟨hlen, hsome⟩ := ih (r := r.startingAt (some c)) floored h0 hlast' hopen
    rw [pagesOf_of_next_eq_some hnext, List.length_cons, List.forall_mem_cons, hlen, hnext]
    exact ⟨rfl, rfl, hsome⟩

end

end Reading

namespace Host

variable {σ : Type} {h : Host σ} {R : Reading} {t : Table} {r : PageRequest} {rows : List Row}

theorem run_restingPage (serves : h.Serves t.name (t.Asks r) (fun _ => rows) R.Answers)
    (floored : R.Floored (t.keyOf r) rows) (small : rows.length ≤ Piece.maxCount)
    (x : Session σ) : ∃ y, h.run (t.page r) x = (.ok (R.restingPageOf t r rows), y) := by
  rw [Table.page, Reading.restingPageOf]
  cases t.settings.lookahead with
  | probe =>
    obtain ⟨-, y, hrun, -⟩ :=
      run_probedPage serves (fun _ => floored.present) (fun _ => floored.distinct) x
    exact ⟨y, hrun⟩
  | overFetch =>
    obtain ⟨y, hrun, -⟩ := run_overFetchedPage serves (fun _ => floored.present)
      (fun _ => floored.distinct) (fun _ => small) x
    exact ⟨y, hrun⟩

/-- **The pages of a walk over a table at rest depend on its rows alone.** -/
theorem run_walk_pagesOf (serves : h.Serves t.name (t.Asks r) (fun _ => rows) R.Answers)
    (floored : R.Floored (t.keyOf r) rows) (small : rows.length ≤ Piece.maxCount) (calls : Nat)
    (x : Session σ) : (h.run (t.walk calls r) x).1 = .ok (R.pagesOf t rows calls r) := by
  induction calls generalizing r x with
  | zero => rfl
  | succ calls ih =>
    obtain ⟨y, hpage⟩ := run_restingPage serves floored small x
    cases hnext : (R.restingPageOf t r rows).next with
    | none => rw [run_walk_last hpage hnext, Reading.pagesOf_of_next_eq_none hnext]
    | some c =>
      have hwalk := ih (r := r.startingAt (some c)) serves floored y
      rw [run_walk_next hpage hnext (Prod.ext hwalk rfl), Reading.pagesOf_of_next_eq_some hnext]

/-- **A walk ends and returns its window, each row once and in order,** iff its pages are told
apart. -/
theorem exists_exact_iff (serves : h.Serves t.name (t.Asks r) (fun _ => rows) R.Answers)
    (floored : R.Floored (t.keyOf r) rows) (small : rows.length ≤ Piece.maxCount)
    (h0 : 1 ≤ (t.limitOf r).toNat) (x : Session σ) :
    (∃ calls pages, (h.run (t.walk calls r) x).1 = .ok pages ∧
      Reading.Exact (t.stretch r).columns (R.visited t r rows) pages) ↔
    R.Separated t.settings.lookahead (t.keyOf r) r.direction (t.limitOf r).toNat
      (R.visited t r rows) := by
  have hpages (calls : Nat) := run_walk_pagesOf serves floored small calls x
  constructor
  · rintro ⟨calls, pages, hrun, hexact⟩
    obtain rfl : R.pagesOf t rows calls r = pages := Except.ok.inj ((hpages calls).symm.trans hrun)
    exact Reading.separated_of_exact floored h0 hexact
  · intro hseparated
    obtain ⟨calls, hexact⟩ := Reading.exists_exact floored h0 hseparated
    exact ⟨calls, _, hpages calls, hexact⟩

end Host

end Keyset
