import Keyset.Proofs.Walk.Call

/-!
# Faults and the statements before them

A call fails in one of three ways: with a fault of its request, before any statement; with the fault
that the store answered with, right after the statement that it answers; or, if it asks for a page,
because a row lacks the key.  `Plan.Fails` says of a plan that it ends with the fault of the store
as soon as there is one, and otherwise with faults of a given kind only.

* `Plan.Fails.bind` : this is kept when plans are put together.
* `Table.asked_or_refused` : a call asks for a statement, or it is refused with a fault of its
  request.
* `Table.PageExchanges` : the exchanges of a page with the store, and what each of them leads to.
* `Host.faults_of_call` : **a call is refused before its first statement or not at all, and the
  faults of the store come through as they are.**
-/

namespace Keyset

/-- A statement with the reply to it. -/
abbrev Exchange := Statement × Reply

namespace Host

variable {σ α β : Type} (h : Host σ)

/-- The exchanges of a plan with the store, in their order. -/
def exchanges : Plan α → σ → List Exchange
  | .done _, _ => []
  | .ask s next, store =>
    (s, (h.execute s store).1) :: exchanges (next (h.execute s store).1) (h.execute s store).2

theorem run_ask (s : Statement) (next : Reply → Plan α) (x : Session σ) :
    h.run (.ask s next) x = h.run (next (h.execute s x.store).1) (h.submit s x).2 := rfl

theorem executed_run (p : Plan α) (x : Session σ) :
    (h.run p x).2.executed = x.executed ++ (h.exchanges p x.store).map (·.1) := by
  induction p generalizing x with
  | done result => simp [run, exchanges]
  | ask s next ih =>
    rw [run, ih, exchanges, List.map_cons]
    simp [submit]

end Host

namespace Plan

variable {α β : Type}

/-- The plan ends with the fault of the store as soon as there is one; its other faults are of the
given kind. -/
def Fails (kind : Fault → Prop) : Plan α → Prop
  | done result => ∀ e, result = .error e → kind e
  | ask _ next => (∀ e, next (.error e) = done (.error e)) ∧ ∀ rows, (next (.ok rows)).Fails kind

namespace Fails

variable {kind kind' : Fault → Prop} {p : Plan α}

theorem mono (hk : ∀ e, kind e → kind' e) (hp : p.Fails kind) : p.Fails kind' := by
  induction p with
  | done result => exact fun e he => hk e (hp e he)
  | ask s next ih => exact ⟨hp.1, fun rows => ih _ (hp.2 rows)⟩

theorem pure (a : α) : (Pure.pure a : Plan α).Fails kind := by
  intro e he
  cases he

theorem ofStatement (s : Statement) : (Plan.ofStatement s).Fails kind := by
  refine ⟨fun e => rfl, fun rows e he => ?_⟩
  cases he

theorem bind {f : α → Plan β} (hp : p.Fails kind) (hf : ∀ a, (f a).Fails kind) :
    (p >>= f).Fails kind := by
  change (p.bind f).Fails kind
  induction p with
  | done result =>
    cases result with
    | ok a => exact hf a
    | error e =>
      intro e' he'
      cases he'
      exact hp e rfl
  | ask s next ih =>
    refine ⟨fun e => ?_, fun rows => ih _ (hp.2 rows)⟩
    exact congrArg (·.bind f) (hp.1 e)

theorem map (f : α → β) (hp : p.Fails kind) : (f <$> p).Fails kind := by
  rw [← bind_pure_comp]
  exact hp.bind fun a => .pure (f a)

/-- **The fault of the store ends the plan**, which gives it as its result. -/
theorem of_error {σ : Type} (h : Host σ) (hp : p.Fails kind) {x : Session σ}
    {before after : List Exchange} {s : Statement} {e : Fault}
    (he : h.exchanges p x.store = before ++ (s, .error e) :: after) :
    after = [] ∧ (h.run p x).1 = .error e := by
  induction p generalizing x before with
  | done result => cases before <;> cases he
  | ask s' next ih =>
    rw [Host.exchanges] at he
    obtain ⟨hfault, hnext⟩ := hp
    cases before with
    | nil =>
      obtain ⟨hexchange, hafter⟩ := List.cons.inj he
      have hreply : (h.execute s' x.store).1 = .error e := congrArg Prod.snd hexchange
      rw [hreply, hfault] at hafter
      rw [Host.run_ask, hreply, hfault]
      exact ⟨hafter.symm, rfl⟩
    | cons exchange before =>
      obtain ⟨-, hrest⟩ := List.cons.inj he
      cases hreply : (h.execute s' x.store).1 with
      | error e' =>
        rw [hreply, hfault] at hrest
        cases before <;> cases hrest
      | ok rows =>
        rw [hreply] at hrest
        rw [Host.run_ask, hreply]
        exact ih _ (hnext rows) hrest

/-- A plan fails with a fault of the store or with one of its own. -/
theorem cases_error {σ : Type} (h : Host σ) (hp : p.Fails kind) {x : Session σ} {e : Fault}
    (he : (h.run p x).1 = .error e) :
    kind e ∨ ∃ s store, (h.execute s store).1 = .error e := by
  induction p generalizing x with
  | done result => exact .inl (hp e he)
  | ask s next ih =>
    obtain ⟨hfault, hnext⟩ := hp
    rw [Host.run_ask] at he
    cases hreply : (h.execute s x.store).1 with
    | error e' =>
      rw [hreply, hfault] at he
      cases he
      exact .inr ⟨s, x.store, hreply⟩
    | ok rows =>
      rw [hreply] at he
      exact ih _ (hnext rows) he

end Fails

end Plan

/-! ### Calls -/

namespace Walk

theorem keyOf_eq_error_iff {w : Walk} {row : Row} {e : Fault} :
    w.keyOf row = .error e ↔ row.get? w.key = none ∧ e = .missingKey w.key := by
  rw [keyOf]
  cases row.get? w.key <;> simp [eq_comm]

theorem fails_keyOf (w : Walk) (row : Row) :
    (Plan.lift (w.keyOf row)).Fails (· = .missingKey w.key) :=
  fun _ he => (keyOf_eq_error_iff.1 he).2

end Walk

namespace Join

theorem isRequest_of_readPair {pair : String} {e : Fault} (he : readPair pair = .error e) :
    e.isRequest = true := by
  rw [readPair] at he
  cases h : splitPair? pair.toList with
  | none =>
    rw [h] at he
    cases he
    rfl
  | some names =>
    rw [h] at he
    cases he

theorem isRequest_of_mapM {pairs : List String} {e : Fault}
    (he : pairs.mapM readPair = .error e) : e.isRequest = true := by
  induction pairs with
  | nil => cases he
  | cons pair pairs ih =>
    rw [List.mapM_cons] at he
    cases hpair : readPair pair with
    | error e' =>
      rw [hpair] at he
      cases he
      exact isRequest_of_readPair hpair
    | ok names =>
      cases hpairs : pairs.mapM readPair with
      | error e' =>
        rw [hpair, hpairs] at he
        cases he
        exact ih hpairs
      | ok rest =>
        rw [hpair, hpairs] at he
        cases he

/-- A join that cannot be read is a fault of the request. -/
theorem isRequest_of_read {target : String} {pairs : List String} {e : Fault}
    (he : read target pairs = .error e) : e.isRequest = true := by
  unfold read at he
  split_ifs at he
  · cases he
    rfl
  · cases he
    rfl
  · cases hpairs : pairs.mapM readPair with
    | error e' =>
      rw [hpairs] at he
      cases he
      exact isRequest_of_mapM hpairs
    | ok ps =>
      rw [hpairs] at he
      cases he

end Join

namespace Table

variable (t : Table)

theorem fails_probedPage (w : Walk) : (t.probedPage w).Fails (· = .missingKey w.key) := by
  refine (Plan.Fails.ofStatement _).bind fun rows => ?_
  cases rows.getLast? with
  | none => exact .pure _
  | some last =>
    refine (w.fails_keyOf last).bind fun key => (Plan.Fails.ofStatement _).bind fun probed => ?_
    cases probed.head? with
    | none => exact .pure _
    | some row => exact (w.fails_keyOf row).bind fun c => .pure _

theorem fails_overFetchedPage (w : Walk) :
    (t.overFetchedPage w).Fails (· = .missingKey w.key) := by
  refine (Plan.Fails.ofStatement _).bind fun rows => ?_
  dsimp only
  cases rows.drop w.limit.toNat with
  | nil => exact .pure _
  | cons row rest =>
    dsimp only
    split_ifs
    · exact .pure _
    · exact (w.fails_keyOf row).bind fun c => .pure _

theorem fails_page (r : PageRequest) : (t.page r).Fails (· = .missingKey (t.keyOf r)) := by
  unfold page
  cases t.settings.lookahead with
  | probe => exact t.fails_probedPage _
  | overFetch => exact t.fails_overFetchedPage _

/-- **A call asks for a statement, or it is refused.** -/
theorem asked_or_refused (c : Call) :
    (∃ e, t.plan c = .done (.error e) ∧ e.isRequest = true) ∨
      (∃ s next, t.plan c = .ask s next) ∧ (t.plan c).Fails (·.isRequest = false) := by
  cases c with
  | find q => exact .inr ⟨⟨_, _, rfl⟩, .map _ (.ofStatement _)⟩
  | insert record => exact .inr ⟨⟨_, _, rfl⟩, .map _ (.ofStatement _)⟩
  | update record q => exact .inr ⟨⟨_, _, rfl⟩, .map _ (.ofStatement _)⟩
  | delete q => exact .inr ⟨⟨_, _, rfl⟩, .map _ (.ofStatement _)⟩
  | verbatim text => exact .inr ⟨⟨_, _, rfl⟩, .map _ (.ofStatement _)⟩
  | join r =>
    cases hj : Join.read r.table r.pairs with
    | error e =>
      refine .inl ⟨e, ?_, Join.isRequest_of_read hj⟩
      rw [plan, join, hj]
      rfl
    | ok j =>
      have hplan : t.plan (.join r) =
          .rows <$> Plan.ofStatement (.select t.name r.query (some j)) := by
        rw [plan, join, hj]
        rfl
      rw [hplan]
      exact .inr ⟨⟨_, _, rfl⟩, .map _ (.ofStatement _)⟩
  | page r =>
    refine .inr ⟨?_, .map _ ((t.fails_page r).mono ?_)⟩
    · rw [plan, page]
      cases t.settings.lookahead <;> exact ⟨_, _, rfl⟩
    · rintro _ rfl
      rfl

end Table

/-! ### Pages -/

namespace Table

variable (t : Table) (r : PageRequest)

/-- The first statement of a page. -/
def firstStatement : Statement :=
  .select t.name ((t.stretch r).page (if t.settings.lookahead = .probe then 0 else 1)) none

/-- After the reply to its first statement a page looks past the given key with a second one. -/
def LooksPast (reply : Reply) (key : Value) : Prop :=
  t.settings.lookahead = .probe ∧ ∃ rows last,
    reply = .ok rows ∧ rows.getLast? = some last ∧ last.get? (t.keyOf r) = some key

theorem not_looksPast_error (e : Fault) (key : Value) : ¬ t.LooksPast r (.error e) key := by
  rintro ⟨-, rows, last, hrows, -⟩
  cases hrows

theorem looksPast_ok_iff {rows : List Row} {key : Value} (hlook : t.settings.lookahead = .probe) :
    t.LooksPast r (.ok rows) key ↔
      ∃ last, rows.getLast? = some last ∧ last.get? (t.keyOf r) = some key := by
  rw [LooksPast, and_iff_right hlook]
  constructor
  · rintro ⟨_, last, ⟨⟩, hlast, hkey⟩
    exact ⟨last, hlast, hkey⟩
  · rintro ⟨last, hlast, hkey⟩
    exact ⟨rows, last, rfl, hlast, hkey⟩

/-- The row whose key a page reads after the replies so far. -/
def keyRow? : List Reply → Option Row
  | [.ok rows] =>
    match t.settings.lookahead with
    | .probe => rows.getLast?
    | .overFetch =>
      if (t.limitOf r).toNat = 0 then none else (rows.drop (t.limitOf r).toNat).head?
  | [.ok _, .ok rows] => rows.head?
  | _ => none

/-- The exchanges of a page with the store, and its result. -/
structure PageExchanges {α : Type} (asked : List Exchange) (result : Except Fault α) : Prop where
  /-- There are two of them at most. -/
  atMostTwo : asked.length ≤ 2
  /-- The second one looks past the last row of the reply to the first one.  There is one iff that
  reply has a last row, and this row has the key. -/
  second : ∃ reply rest, asked = (t.firstStatement r, reply) :: rest ∧
    (∀ key, t.LooksPast r reply key → ∃ reply',
      rest = [(.select t.name ((t.stretch r).probe (.ofKey key)) none, reply')]) ∧
    ((∀ key, ¬ t.LooksPast r reply key) → rest = [])
  /-- A row without the key ends the page. -/
  keyless : ∀ row, t.keyRow? r (asked.map (·.2)) = some row → row.get? (t.keyOf r) = none →
    result = .error (.missingKey (t.keyOf r))

namespace PageExchanges

variable {t r} {α : Type} {reply reply' : Reply} {key : Value} {result : Except Fault α}

theorem once (hpast : ∀ key, ¬ t.LooksPast r reply key)
    (hkeyless : ∀ row, t.keyRow? r [reply] = some row → row.get? (t.keyOf r) = none →
      result = .error (.missingKey (t.keyOf r))) :
    t.PageExchanges r [(t.firstStatement r, reply)] result where
  atMostTwo := Nat.le_succ 1
  second := ⟨reply, [], rfl, fun key hkey => absurd hkey (hpast key), fun _ => rfl⟩
  keyless := hkeyless

theorem twice (hpast : t.LooksPast r reply key)
    (hkeyless : ∀ rows row, reply' = .ok rows → rows.head? = some row →
      row.get? (t.keyOf r) = none → result = .error (.missingKey (t.keyOf r))) :
    t.PageExchanges r [(t.firstStatement r, reply),
      (.select t.name ((t.stretch r).probe (.ofKey key)) none, reply')] result := by
  obtain ⟨hlook, rows, last, rfl, hlast, hkey⟩ := hpast
  refine ⟨Nat.le_refl 2, ⟨.ok rows, _, rfl, ?_, ?_⟩, ?_⟩
  · rintro key' ⟨-, rows', last', hrows', hlast', hkey'⟩
    cases hrows'
    rw [hlast] at hlast'
    cases hlast'
    rw [hkey] at hkey'
    cases hkey'
    exact ⟨reply', rfl⟩
  · intro hnone
    exact absurd ⟨hlook, rows, last, rfl, hlast, hkey⟩ (hnone key)
  · intro row hrow
    cases reply' with
    | error e => cases hrow
    | ok probed => exact hkeyless probed row rfl hrow

theorem map {β : Type} (f : α → β) {asked : List Exchange}
    (hasked : t.PageExchanges r asked result) : t.PageExchanges r asked (result.map f) where
  atMostTwo := hasked.atMostTwo
  second := hasked.second
  keyless := by
    intro row hrow hnone
    rw [hasked.keyless row hrow hnone]
    rfl

end PageExchanges

end Table

namespace Host

variable {σ α β : Type} {h : Host σ} {t : Table} {r : PageRequest} {q : Query}

theorem exchanges_find_ok {f : List Row → Plan α} {store : σ} {rows : List Row}
    (hr : (h.execute (.select t.name q none) store).1 = .ok rows) :
    h.exchanges (t.find q >>= f) store = (.select t.name q none, .ok rows) ::
      h.exchanges (f rows) (h.execute (.select t.name q none) store).2 := by
  change h.exchanges (.ask _ fun reply => (Plan.done reply).bind f) store = _
  rw [exchanges, hr]
  rfl

theorem exchanges_find_error {f : List Row → Plan α} {store : σ} {e : Fault}
    (hr : (h.execute (.select t.name q none) store).1 = .error e) :
    h.exchanges (t.find q >>= f) store = [(.select t.name q none, .error e)] := by
  change h.exchanges (.ask _ fun reply => (Plan.done reply).bind f) store = _
  rw [exchanges, hr]
  rfl

theorem exchanges_lift (a : α) (f : α → Plan β) (store : σ) :
    h.exchanges (Plan.lift (.ok a) >>= f) store = h.exchanges (f a) store := rfl

theorem exchanges_map (f : α → β) (p : Plan α) (store : σ) :
    h.exchanges (f <$> p) store = h.exchanges p store := by
  rw [← bind_pure_comp]
  change h.exchanges (p.bind fun a => .done (.ok (f a))) store = _
  induction p generalizing store with
  | done result => cases result <;> rfl
  | ask s next ih => simp only [Plan.bind, exchanges, ih]

theorem run_map (f : α → β) (p : Plan α) (x : Session σ) :
    (h.run (f <$> p) x).1 = (h.run p x).1.map f := by
  rw [← bind_pure_comp]
  change (h.run (p.bind fun a => .done (.ok (f a))) x).1 = _
  rw [run_bind]
  cases hp : h.run p x with
  | mk result y => cases result <;> rfl

theorem pageExchanges_probedPage (hlook : t.settings.lookahead = .probe) (x : Session σ) :
    t.PageExchanges r (h.exchanges (t.probedPage (t.stretch r)) x.store)
      (h.run (t.probedPage (t.stretch r)) x).1 := by
  have hfirst : t.firstStatement r = .select t.name ((t.stretch r).page 0) none := by
    simp [Table.firstStatement, hlook]
  unfold Table.probedPage
  cases hreply : (h.execute (.select t.name ((t.stretch r).page 0) none) x.store).1 with
  | error e =>
    rw [exchanges_find_error hreply, ← hfirst]
    exact .once (t.not_looksPast_error r e) fun _ hrow => nomatch hrow
  | ok rows =>
    rw [exchanges_find_ok hreply, run_bind_ok (run_find hreply), ← hfirst]
    have hrow : t.keyRow? r [.ok rows] = rows.getLast? := by simp [Table.keyRow?, hlook]
    have hpast {key : Value} : t.LooksPast r (.ok rows) key ↔ _ := t.looksPast_ok_iff r hlook
    set y := (h.submit (t.firstStatement r) x).2
    change t.PageExchanges r (_ :: h.exchanges _ y.store) _
    cases hlast : rows.getLast? with
    | none => exact .once (by simp [hpast, hlast]) (by simp [hrow, hlast])
    | some last =>
      dsimp only
      cases hkey : last.get? (t.keyOf r) with
      | none =>
        rw [Walk.keyOf_eq_error_iff.2 ⟨hkey, rfl⟩]
        exact .once (by simp [hpast, hlast, hkey]) fun _ _ _ => rfl
      | some key =>
        have hpast := hpast.2 ⟨last, hlast, hkey⟩
        rw [Walk.keyOf_eq_ok (w := t.stretch r) hkey, run_bind_ok (run_lift _ y), exchanges_lift]
        -- the page looks past the key with a second statement
        cases hreply' : (h.execute (.select t.name ((t.stretch r).probe (.ofKey key)) none)
            y.store).1 with
        | error e =>
          rw [exchanges_find_error hreply']
          exact .twice hpast fun _ _ hrows => nomatch hrows
        | ok probed =>
          rw [exchanges_find_ok hreply', run_bind_ok (run_find hreply')]
          cases hhead : probed.head? with
          | none => exact .twice hpast (by rintro _ row ⟨⟩; simp [hhead])
          | some row =>
            cases hfound : (t.stretch r).keyOf row with
            | error e =>
              dsimp only
              rw [hfound, (Walk.keyOf_eq_error_iff.1 hfound).2]
              exact .twice hpast fun _ _ _ _ _ => rfl
            | ok c =>
              dsimp only
              rw [hfound]
              refine .twice hpast ?_
              rintro _ row' ⟨⟩ hrow' hnone
              obtain rfl : row = row' := Option.some.inj (hhead.symm.trans hrow')
              rw [Walk.keyOf_eq_error_iff.2 ⟨hnone, rfl⟩] at hfound
              cases hfound

theorem pageExchanges_overFetchedPage (hlook : t.settings.lookahead = .overFetch)
    (x : Session σ) :
    t.PageExchanges r (h.exchanges (t.overFetchedPage (t.stretch r)) x.store)
      (h.run (t.overFetchedPage (t.stretch r)) x).1 := by
  have hfirst : t.firstStatement r = .select t.name ((t.stretch r).page 1) none := by
    simp [Table.firstStatement, hlook]
  have hpast (reply : Reply) (key : Value) : ¬ t.LooksPast r reply key := by
    rintro ⟨hprobe, -⟩
    rw [hlook] at hprobe
    cases hprobe
  unfold Table.overFetchedPage
  cases hreply : (h.execute (.select t.name ((t.stretch r).page 1) none) x.store).1 with
  | error e =>
    rw [exchanges_find_error hreply, ← hfirst]
    exact .once (hpast _) fun _ hrow => nomatch hrow
  | ok rows =>
    rw [exchanges_find_ok hreply, run_bind_ok (run_find hreply), ← hfirst]
    have hrow : t.keyRow? r [.ok rows] = if (t.limitOf r).toNat = 0 then none
        else (rows.drop (t.limitOf r).toNat).head? := by
      simp [Table.keyRow?, hlook]
    simp only [show (t.stretch r).limit = t.limitOf r from rfl]
    cases hd : rows.drop (t.limitOf r).toNat with
    | nil =>
      refine .once (hpast _) fun row hrow' => ?_
      rw [hrow, hd, List.head?_nil, ite_self] at hrow'
      cases hrow'
    | cons row rest =>
      change t.PageExchanges r (_ :: h.exchanges (if (t.limitOf r).toNat = 0 then _ else _) _)
        (h.run (if (t.limitOf r).toNat = 0 then _ else _) _).1
      split_ifs with h0
      · refine .once (hpast _) fun row' hrow' => ?_
        rw [hrow, if_pos h0] at hrow'
        cases hrow'
      · have hlast {row' : Row} (hrow' : t.keyRow? r [.ok rows] = some row') : row = row' := by
          rw [hrow, if_neg h0, hd] at hrow'
          exact Option.some.inj hrow'
        cases hkey : (t.stretch r).keyOf row with
        | error e =>
          rw [(Walk.keyOf_eq_error_iff.1 hkey).2]
          exact .once (hpast _) fun _ _ _ => rfl
        | ok c =>
          refine .once (hpast _) fun row' hrow' hnone => ?_
          rw [hlast hrow', Walk.keyOf_eq_error_iff.2 ⟨hnone, rfl⟩] at hkey
          cases hkey

theorem pageExchanges_page (x : Session σ) :
    t.PageExchanges r (h.exchanges (t.page r) x.store) (h.run (t.page r) x).1 := by
  unfold Table.page
  cases hlook : t.settings.lookahead with
  | probe => exact pageExchanges_probedPage hlook x
  | overFetch => exact pageExchanges_overFetchedPage hlook x

/-- **A call fails with a fault of its request iff it fails before its first statement.**  A fault
that the store answers with is the result of the call, and no statement follows it.  A page asks for
two statements at most, for the second one iff the reply to the first one shows where to look, and a
row without the key ends it. -/
theorem faults_of_call (h : Host σ)
    (own : ∀ s store e, (h.execute s store).1 = .error e → e.isRequest = false)
    (t : Table) (c : Call) (x : Session σ) :
    let result := (h.run (t.plan c) x).1
    let asked := h.exchanges (t.plan c) x.store
    (h.run (t.plan c) x).2.executed = x.executed ++ asked.map (·.1) ∧
      (∀ e, result = .error e → (e.isRequest = true ↔ asked = [])) ∧
      (∀ before s e after, asked = before ++ (s, .error e) :: after →
        after = [] ∧ result = .error e) ∧
      ∀ r, c = .page r → t.PageExchanges r asked result := by
  intro result asked
  refine ⟨h.executed_run _ x, ?_, ?_, ?_⟩
  · intro e he
    rcases t.asked_or_refused c with ⟨e', hplan, hrequest⟩ | ⟨⟨s, next, hplan⟩, hfails⟩
    · have hresult : result = .error e' := by simp only [result, hplan, run]
      rw [hresult] at he
      cases he
      exact iff_of_true hrequest (by simp only [asked, hplan, exchanges])
    · have hasked : asked ≠ [] := by simp [asked, hplan, exchanges]
      refine iff_of_false ?_ hasked
      rw [Bool.not_eq_true]
      rcases hfails.cases_error h he with hown | ⟨s', store, hstore⟩
      · exact hown
      · exact own s' store e hstore
  · intro before s e after hsplit
    rcases t.asked_or_refused c with ⟨e', hplan, -⟩ | ⟨-, hfails⟩
    · have hasked : asked = [] := by simp only [asked, hplan, exchanges]
      rw [hasked] at hsplit
      cases before <;> cases hsplit
    · exact hfails.of_error h hsplit
  · rintro r rfl
    have hpage := (pageExchanges_page (h := h) (t := t) (r := r) x).map Answer.page
    rw [← exchanges_map Answer.page, ← run_map] at hpage
    exact hpage

/-- The store shows a row and then fails: the page fails as the store does, after two statements. -/
theorem faults_of_call_full_disk :
    let h : Host Nat :=
      { execute := fun _ n =>
          if n = 0 then (.ok [[("id", .integer 3)]], 1) else (.error (.execution "disk full"), n)
        release := fun _ _ => .ok ()
        background := some .queue }
    let t : Table := ⟨"things", {}, by decide⟩
    (h.run (t.plan (.page {})) { store := 0 }).1 = .error (.execution "disk full") ∧
      (h.run (t.plan (.page {})) { store := 0 }).2.executed =
        (h.exchanges (t.plan (.page {})) 0).map (·.1) ∧
      (h.exchanges (t.plan (.page {})) 0).length = 2 := by
  intro h t
  have own : ∀ s store e, (h.execute s store).1 = .error e → e.isRequest = false := by
    intro s store e he
    cases store with
    | zero => cases he
    | succ n =>
      cases he
      rfl
  obtain ⟨hexecuted, -, hstore, -⟩ := faults_of_call h own t (.page {}) { store := 0 }
  obtain ⟨-, hresult⟩ := hstore [_] _ _ [] rfl
  exact ⟨hresult, hexecuted, rfl⟩

end Host

end Keyset
