import Keyset.Proofs.Session.Faults
import Keyset.Proofs.Sql.Columns

/-!
# The column of the key

The cursor of a page is read from a row, so a page asks for the column of the key even if the
request does not.  Where a store answers with the columns that it is asked for, no page lacks a key,
and no page lacks a column that was requested.

* `Plan.Yields.run` : a plan that goes on well with every fitting reply ends well, or with a fault
  of the store.
* `Walk.included_withKey` : the columns that a page asks for.
* `Host.page_keeps_columns` : **the rows of a page have the key and the requested columns**, and
  what the statement of the page selects.
-/

namespace Keyset

open Fragment

/-! ### Plans that end well -/

namespace Plan

variable {α β σ : Type} {fits : Statement → List Row → Prop} {post : α → Prop}

/-- As long as the rows that the store answers with fit the statements, the plan goes on to a result
with the property `post`.  A fault of the store ends it. -/
def Yields (fits : Statement → List Row → Prop) (post : α → Prop) : Plan α → Prop
  | done (.ok a) => post a
  | done (.error _) => False
  | ask s next => (∀ e, next (.error e) = done (.error e)) ∧
      ∀ rows, fits s rows → (next (.ok rows)).Yields fits post

namespace Yields

theorem ofStatement (s : Statement) : (Plan.ofStatement s).Yields fits (fits s) :=
  ⟨fun _ => rfl, fun _ hrows => hrows⟩

theorem bind {p : Plan α} {f : α → Plan β} {post' : β → Prop} (hp : p.Yields fits post)
    (hf : ∀ a, post a → (f a).Yields fits post') : (p >>= f).Yields fits post' := by
  change (p.bind f).Yields fits post'
  induction p with
  | done result =>
    cases result with
    | ok a => exact hf a hp
    | error e => exact hp.elim
  | ask s next ih =>
    exact ⟨fun e => congrArg (·.bind f) (hp.1 e), fun rows hrows => ih _ (hp.2 rows hrows)⟩

/-- **If every reply fits, the plan ends well or with a fault that the store answered with.** -/
theorem run {p : Plan α} (hp : p.Yields fits post) (h : Host σ) (x : Session σ)
    (hfits : ∀ s rows, (s, .ok rows) ∈ h.exchanges p x.store → fits s rows) :
    (∃ a, (h.run p x).1 = .ok a ∧ post a) ∨
      ∃ s e, (h.run p x).1 = .error e ∧ (s, .error e) ∈ h.exchanges p x.store := by
  induction p generalizing x with
  | done result =>
    cases result with
    | ok a => exact .inl ⟨a, rfl, hp⟩
    | error e => exact hp.elim
  | ask s next ih =>
    rw [Host.run_ask]
    rw [Host.exchanges] at hfits ⊢
    cases hreply : (h.execute s x.store).1 with
    | error e =>
      rw [hp.1]
      exact .inr ⟨s, e, rfl, List.mem_cons_self⟩
    | ok rows =>
      rw [hreply] at hfits
      have hrest := ih (.ok rows) (hp.2 rows (hfits s rows List.mem_cons_self))
        (h.submit s x).2 fun s' rows' hmem => hfits s' rows' (List.mem_cons_of_mem _ hmem)
      refine hrest.imp_right ?_
      rintro ⟨s', e, hresult, hmem⟩
      exact ⟨s', e, hresult, List.mem_cons_of_mem _ hmem⟩

end Yields

end Plan

/-! ### What a page selects -/

/-- The columns that a page asks for are those of the request in their order, and then the key if
there are any and the key is not among them. -/
theorem Walk.included_withKey (key : String) (columns : List (String × Bool)) :
    Query.included (withKey key columns) = Query.included columns ++
      if Query.included columns = [] ∨ key ∈ Query.included columns then [] else [key] := by
  unfold withKey
  dsimp only
  split
  · rw [List.append_nil]
  · simp [Query.included]

/-! ### Pages -/

/-- The row has the columns that the query names, and all of the given ones if it names none. -/
def Row.Covers (columns : List String) (q : Query) (row : Row) : Prop :=
  ∀ c ∈ (if Query.included q.columns = [] then columns else Query.included q.columns),
    (row.get? c).isSome = true

instance (columns : List String) (q : Query) (row : Row) : Decidable (row.Covers columns q) :=
  inferInstanceAs (Decidable (∀ _ ∈ _, _))

/-- The row has the key and the columns that were requested. -/
def PageRequest.Shown (r : PageRequest) (key : String) (row : Row) : Prop :=
  ∀ c ∈ key :: Query.included r.columns, (row.get? c).isSome = true

namespace Table

variable {t : Table} {r : PageRequest} {columns : List String}

theorem shown_of_covers (key : Query.included r.columns = [] → t.keyOf r ∈ columns) {q : Query}
    (hq : q.columns = (t.stretch r).columns) {row : Row} (h : row.Covers columns q) :
    r.Shown (t.keyOf r) row := by
  have hincluded : Query.included q.columns = Query.included r.columns ++
      if Query.included r.columns = [] ∨ t.keyOf r ∈ Query.included r.columns then []
        else [t.keyOf r] := by
    rw [hq]
    exact Walk.included_withKey (t.keyOf r) r.columns
  rw [Row.Covers, hincluded] at h
  intro c hc
  by_cases hempty : Query.included r.columns = []
  · rw [hempty] at h hc
    obtain rfl := List.mem_singleton.1 hc
    exact h _ (key hempty)
  · rw [if_neg (by simp [hempty])] at h
    refine h c (List.mem_append.2 ?_)
    rcases List.mem_cons.1 hc with rfl | hc
    · by_cases hkey : t.keyOf r ∈ Query.included r.columns
      · exact .inl hkey
      · exact .inr (by simp [hempty, hkey])
    · exact .inl hc

/-- The rows answer the selections from the table. -/
def Fits (t : Table) (columns : List String) (s : Statement) (rows : List Row) : Prop :=
  ∀ q, s = .select t.name q none → ∀ row ∈ rows, row.Covers columns q

theorem yields_keyOf {α : Type} {fits : Statement → List Row → Prop} {post : α → Prop}
    {row : Row} (h : (row.get? (t.keyOf r)).isSome = true) {f : Cursor → Plan α}
    (hf : ∀ c, (f c).Yields fits post) :
    (Plan.lift ((t.stretch r).keyOf row) >>= f).Yields fits post := by
  obtain ⟨v, hv⟩ := Option.isSome_iff_exists.1 h
  rw [Walk.keyOf_eq_ok (w := t.stretch r) hv]
  exact hf _

theorem yields_probedPage (key : Query.included r.columns = [] → t.keyOf r ∈ columns) :
    (t.probedPage (t.stretch r)).Yields (t.Fits columns)
      fun p => ∀ row ∈ p.rows, r.Shown (t.keyOf r) row := by
  refine (Plan.Yields.ofStatement _).bind fun rows hrows => ?_
  have hshown : ∀ row ∈ rows, r.Shown (t.keyOf r) row := fun row hrow =>
    shown_of_covers key rfl (hrows _ rfl row hrow)
  cases hlast : rows.getLast? with
  | none => exact hshown
  | some last =>
    have hkey := hshown last (List.mem_of_getLast? hlast) _ List.mem_cons_self
    refine yields_keyOf hkey fun c => ?_
    refine (Plan.Yields.ofStatement _).bind fun probed hprobed => ?_
    cases hhead : probed.head? with
    | none => exact hshown
    | some row =>
      -- the statement that looks past the last row names the key and nothing else
      have hkey := hprobed _ rfl row (List.mem_of_head? hhead) (t.keyOf r) List.mem_cons_self
      exact yields_keyOf hkey fun c => hshown

theorem yields_overFetchedPage (key : Query.included r.columns = [] → t.keyOf r ∈ columns) :
    (t.overFetchedPage (t.stretch r)).Yields (t.Fits columns)
      fun p => ∀ row ∈ p.rows, r.Shown (t.keyOf r) row := by
  refine (Plan.Yields.ofStatement _).bind fun rows hrows => ?_
  have hshown : ∀ row ∈ rows, r.Shown (t.keyOf r) row := fun row hrow =>
    shown_of_covers key rfl (hrows _ rfl row hrow)
  have hpage : ∀ row ∈ rows.take (t.stretch r).limit.toNat, r.Shown (t.keyOf r) row :=
    fun row hrow => hshown row (List.mem_of_mem_take hrow)
  dsimp only
  cases hdrop : rows.drop (t.stretch r).limit.toNat with
  | nil => exact hpage
  | cons row rest =>
    have hrow : row ∈ rows := List.mem_of_mem_drop (hdrop ▸ List.mem_cons_self)
    dsimp only
    split_ifs
    · exact hpage
    · exact yields_keyOf (hshown row hrow _ List.mem_cons_self) fun c => hpage

theorem yields_page (key : Query.included r.columns = [] → t.keyOf r ∈ columns) :
    (t.page r).Yields (t.Fits columns) fun p => ∀ row ∈ p.rows, r.Shown (t.keyOf r) row := by
  unfold page
  cases t.settings.lookahead with
  | probe => exact yields_probedPage key
  | overFetch => exact yields_overFetchedPage key

end Table

/-- **The rows of a page have the key and the requested columns**, if the rows that the store
answers with have the columns that the statements name.  Then the page fails only as the store does,
so it never lacks the key.  Its statement selects the requested columns in their order, and the key
after them iff some are requested and the key is not; it selects all columns iff none is
requested. -/
theorem Host.page_keeps_columns {σ : Type} (h : Host σ) (t : Table) (r : PageRequest)
    (x : Session σ) {columns : List String}
    (key : Query.included r.columns = [] → t.keyOf r ∈ columns)
    (covered : ∀ q rows, (.select t.name q none, .ok rows) ∈ h.exchanges (t.page r) x.store →
      ∀ row ∈ rows, row.Covers columns q) :
    ((∃ p, (h.run (t.page r) x).1 = .ok p ∧ ∀ row ∈ p.rows, r.Shown (t.keyOf r) row) ∨
        ∃ s e, (h.run (t.page r) x).1 = .error e ∧
          (s, .error e) ∈ h.exchanges (t.page r) x.store) ∧
      ∃ q reply rest, h.exchanges (t.page r) x.store = (.select t.name q none, reply) :: rest ∧
        Query.included q.columns = Query.included r.columns ++
          (if Query.included r.columns = [] ∨ t.keyOf r ∈ Query.included r.columns then []
            else [t.keyOf r]) ∧
        (Clause.columns q.columns = token .star ↔ Query.included r.columns = []) ∧
        ∀ d, ∃ rest, (Statement.select t.name q none).render d = String.ofList ("SELECT ".toList ++
          (if Query.included r.columns = [] then ['*']
            else List.intercalate ", ".toList ((Query.included q.columns).map d.name)) ++
          " FROM ".toList ++ rest) := by
  refine ⟨(Table.yields_page key).run h x fun s rows hmem q hs => ?_, ?_⟩
  · subst hs
    exact covered q rows hmem
  obtain ⟨q, reply, rest, hfirst, hcolumns⟩ : ∃ q reply rest,
      h.exchanges (t.page r) x.store = (.select t.name q none, reply) :: rest ∧
        q.columns = Walk.withKey (t.keyOf r) r.columns := by
    unfold Table.page
    cases t.settings.lookahead <;> exact ⟨_, _, _, rfl, rfl⟩
  have hincluded := Walk.included_withKey (t.keyOf r) r.columns
  rw [← hcolumns] at hincluded
  have hempty : Query.included q.columns = [] ↔ Query.included r.columns = [] := by
    rw [hincluded]
    split_ifs <;> simp_all
  refine ⟨q, reply, rest, hfirst, hincluded, ?_, fun d => ?_⟩
  · rw [Clause.columns_eq_star_iff, hempty]
  · obtain ⟨rest, hrest⟩ := Statement.render_select d t.name q none
    refine ⟨rest, ?_⟩
    simp only [hrest, hempty]

/-- A request that names one column twice and excludes the key. -/
theorem Host.page_keeps_columns_excluded :
    let h : Host Nat :=
      { execute := fun _ n => (.ok [if n = 0 then [("n", .null), ("n", .null), ("id", .integer 3)]
          else [("id", .integer 2)]], n + 1)
        release := fun _ _ => .ok ()
        background := none }
    let t : Table := ⟨"t", {}, by decide⟩
    let r : PageRequest := { columns := [("n", true), ("id", false), ("n", true)] }
    (∃ p, (h.run (t.page r) { store := 0 }).1 = .ok p ∧ ∀ row ∈ p.rows, r.Shown "id" row) ∧
      ∃ q reply rest, h.exchanges (t.page r) 0 = (.select "t" q none, reply) :: rest ∧
        Query.included q.columns = ["n", "n", "id"] := by
  intro h t r
  have covered : ∀ q rows, (.select "t" q none, .ok rows) ∈ h.exchanges (t.page r) 0 →
      ∀ row ∈ rows, row.Covers ["n", "id"] q := by
    intro q rows hmem row hrow
    rcases List.mem_cons.1 hmem with hpage | hmem
    · cases hpage
      obtain rfl := List.mem_singleton.1 hrow
      decide
    · cases List.mem_singleton.1 hmem
      obtain rfl := List.mem_singleton.1 hrow
      decide
  obtain ⟨hrows, q, reply, rest, hfirst, hincluded, -⟩ :=
    page_keeps_columns h t r { store := 0 } (by decide) covered
  refine ⟨hrows.resolve_right ?_, q, reply, rest, hfirst, hincluded⟩
  rintro ⟨s, e, herror, -⟩
  cases herror

end Keyset
