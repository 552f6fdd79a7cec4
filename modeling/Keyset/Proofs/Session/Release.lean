import Keyset.Session
import Keyset.Table

/-!
# Releases follow the statements that were run

A session with a background keeps an account: what was released and what still waits are together
the statements that were run (`Session.Balanced`).  Every statement that is run keeps the balance,
whatever the reply is, and so do the releases, in whatever order the background takes them up and
whatever becomes of them.  The account is in the order of the statements as well if the background
takes up the oldest one first.  Replies depend on none of this, since the store does not
(`Session.Alike`).

* `Host.run_balanced`, `Host.run_alike` : what a plan keeps, by induction on it.
* `Host.settle_balanced` : what the background keeps.
* `Host.released_eq_executed` : **between calls all that was run is released once, and in order if
  the background keeps the order**, and nothing else about a run of calls depends on releases.
-/

namespace Keyset

variable {σ α : Type}

namespace Session

/-- The statements that were released and those that wait are the statements that were run, in their
order if the background keeps it.  Without a background there are none of them. -/
structure Balanced (background : Option Background) (x : Session σ) : Prop where
  absent : background = none → x.released ++ x.pending = []
  once : ∀ b, background = some b → (x.released ++ x.pending).Perm x.executed
  inOrder : ∀ b, background = some b → b.OldestFirst → x.released ++ x.pending = x.executed

/-- The two sessions look the same to the store and to the caller. -/
def Alike (x y : Session σ) : Prop := x.store = y.store ∧ x.executed = y.executed

theorem balanced_start (background : Option Background) (store : σ) :
    Balanced background ({ store } : Session σ) :=
  ⟨fun _ => rfl, fun _ _ => .rfl, fun _ _ _ => rfl⟩

end Session

namespace Host

variable (h : Host σ) {x y : Session σ}

/-! ### One plan -/

theorem submit_balanced (s : Statement) (hx : x.Balanced h.background) :
    (h.submit s x).2.Balanced h.background := by
  cases hb : h.background with
  | none =>
    refine ⟨fun _ => ?_, nofun, nofun⟩
    simpa [submit, hb] using hx.absent hb
  | some b =>
    refine ⟨nofun, ?_, ?_⟩
    · rintro _ ⟨⟩
      simp only [submit, hb, Option.isSome_some, if_true, ← List.append_assoc]
      exact (hx.once b hb).append_right [s]
    · rintro _ ⟨⟩ oldest
      simp only [submit, hb, Option.isSome_some, if_true, ← List.append_assoc]
      rw [hx.inOrder b hb oldest]

theorem run_balanced (p : Plan α) (hx : x.Balanced h.background) :
    (h.run p x).2.Balanced h.background := by
  induction p generalizing x with
  | done result => exact hx
  | ask s next ih => exact ih _ (h.submit_balanced s hx)

/-! ### The background -/

theorem releaseOne_eq (x : Session σ) (s : Statement) :
    h.releaseOne x s = { x with released := x.released ++ [s] } := by
  unfold releaseOne
  split <;> rfl

theorem foldl_releaseOne (waiting : List Statement) (x : Session σ) :
    waiting.foldl h.releaseOne x = { x with released := x.released ++ waiting } := by
  induction waiting generalizing x with
  | nil => simp
  | cons s waiting ih => rw [List.foldl_cons, ih, releaseOne_eq, List.append_assoc]; rfl

theorem settle_eq_self (hb : h.background = none) : h.settle x = x := by
  rw [settle, hb]

theorem settle_eq {b : Background} (hb : h.background = some b) :
    h.settle x =
      { x with pending := [], released := x.released ++ b.order x.released x.pending } := by
  rw [settle, hb]
  exact h.foldl_releaseOne _ _

/-- **The background keeps the balance**, and nothing waits after it. -/
theorem settle_balanced (hx : x.Balanced h.background) :
    (h.settle x).Balanced h.background ∧ (h.settle x).pending = [] := by
  cases hb : h.background with
  | none =>
    rw [h.settle_eq_self hb, ← hb]
    exact ⟨hx, (List.append_eq_nil_iff.1 (hx.absent hb)).2⟩
  | some b =>
    rw [h.settle_eq hb]
    refine ⟨⟨nofun, ?_, ?_⟩, rfl⟩
    · rintro _ ⟨⟩
      rw [List.append_nil]
      exact ((b.order_perm _ _).append_left _).trans (hx.once b hb)
    · rintro _ ⟨⟩ oldest
      rw [List.append_nil, oldest, hx.inOrder b hb oldest]

theorem settle_alike (x : Session σ) : (h.settle x).Alike x := by
  cases hb : h.background with
  | none => rw [h.settle_eq_self hb]; exact ⟨rfl, rfl⟩
  | some b => rw [h.settle_eq hb]; exact ⟨rfl, rfl⟩

/-! ### Two hosts with one store -/

variable {h} {h' : Host σ}

theorem submit_alike (same : h.execute = h'.execute) (s : Statement) (hxy : x.Alike y) :
    (h.submit s x).1 = (h'.submit s y).1 ∧ (h.submit s x).2.Alike (h'.submit s y).2 := by
  obtain ⟨hstore, hexecuted⟩ := hxy
  simp only [submit, Session.Alike, same, hstore, hexecuted, and_self]

theorem run_alike (same : h.execute = h'.execute) (p : Plan α) (hxy : x.Alike y) :
    (h.run p x).1 = (h'.run p y).1 ∧ (h.run p x).2.Alike (h'.run p y).2 := by
  induction p generalizing x y with
  | done result => exact ⟨rfl, hxy⟩
  | ask s next ih =>
    obtain ⟨hreply, hnext⟩ := submit_alike same s hxy
    rw [run, run, hreply]
    exact ih _ hnext

theorem serve_alike (same : h.execute = h'.execute) (p : Plan α) (hxy : x.Alike y) :
    (h.serve p x).1 = (h'.serve p y).1 ∧ (h.serve p x).2.Alike (h'.serve p y).2 := by
  obtain ⟨hresult, hstore, hexecuted⟩ := run_alike same p hxy
  obtain ⟨hs, he⟩ := h.settle_alike (h.run p x).2
  obtain ⟨hs', he'⟩ := h'.settle_alike (h'.run p y).2
  exact ⟨hresult, hs.trans (hstore.trans hs'.symm), he.trans (hexecuted.trans he'.symm)⟩

/-! ### A run of calls -/

theorem serveAll_balanced (h : Host σ) (plans : List (Plan α)) (hx : x.Balanced h.background)
    (hpending : x.pending = []) :
    (h.serveAll plans x).2.Balanced h.background ∧ (h.serveAll plans x).2.pending = [] := by
  induction plans generalizing x with
  | nil => exact ⟨hx, hpending⟩
  | cons p plans ih =>
    obtain ⟨hserved, hsettled⟩ := h.settle_balanced (h.run_balanced p hx)
    exact ih hserved hsettled

theorem serveAll_alike (same : h.execute = h'.execute) (plans : List (Plan α))
    (hxy : x.Alike y) :
    (h.serveAll plans x).1 = (h'.serveAll plans y).1 ∧
      (h.serveAll plans x).2.Alike (h'.serveAll plans y).2 := by
  induction plans generalizing x y with
  | nil => exact ⟨rfl, hxy⟩
  | cons p plans ih =>
    obtain ⟨hresult, hserved⟩ := serve_alike same p hxy
    obtain ⟨hresults, hend⟩ := ih hserved
    refine ⟨?_, hend⟩
    show (h.serve p x).1 :: (h.serveAll plans (h.serve p x).2).1 =
      (h'.serve p y).1 :: (h'.serveAll plans (h'.serve p y).2).1
    rw [hresult, hresults]

/-- **Every statement that calls run is released once, before the next call**, whatever the order
in which the background takes statements up; in the order in which they were run, if it takes up
the oldest one first; and without a background nothing is released.  A host on the same store that
releases in another way, in another order or not at all runs the same statements and gives every
call the same result. -/
theorem released_eq_executed (h : Host σ) (calls : List (Table × Call)) (store : σ) :
    let plans := calls.map fun c => c.1.plan c.2
    let served := h.serveAll plans { store }
    (h.background = none → served.2.released = []) ∧
      (∀ b, h.background = some b → served.2.released.Perm served.2.executed ∧
        (b.OldestFirst → served.2.released = served.2.executed)) ∧
      ∀ (release : List Statement → Statement → Except Fault Unit)
        (background : Option Background),
        let served' := Host.serveAll { h with release, background } plans { store }
        served'.1 = served.1 ∧ served'.2.executed = served.2.executed := by
  intro plans served
  obtain ⟨⟨habsent, honce, hinOrder⟩, hpending⟩ :=
    h.serveAll_balanced plans (Session.balanced_start h.background store) rfl
  rw [hpending, List.append_nil] at habsent honce hinOrder
  refine ⟨habsent, fun b hb => ⟨honce b hb, hinOrder b hb⟩, fun release background => ?_⟩
  obtain ⟨hresults, -, hexecuted⟩ :=
    serveAll_alike (show { h with release, background }.execute = h.execute from rfl) plans
      (x := { store }) (y := { store }) ⟨rfl, rfl⟩
  exact ⟨hresults, hexecuted⟩

/-- A page whose second statement fails and whose first release fails. -/
theorem released_eq_executed_page :
    let t : Table := ⟨"things", {}, by decide⟩
    let replies : List Reply := [.ok [[("id", .integer 3)]], .error (.execution "disk full")]
    let release (released : List Statement) (_ : Statement) : Except Fault Unit :=
      if released = [] then .error (.execution "release failed") else .ok ()
    let h := { scripted true fun _ => .ok () with release }
    let served := h.serveAll [t.plan (.page {})] { store := replies }
    h.background = some .queue ∧ Background.queue.OldestFirst ∧
      served.1 = [.error (.execution "disk full")] ∧ served.2.executed.length = 2 ∧
      served.2.released = served.2.executed := by
  intro t replies release h served
  obtain ⟨-, hreleased, -⟩ := released_eq_executed h [(t, .page {})] replies
  exact ⟨rfl, Background.oldestFirst_queue, rfl, rfl,
    (hreleased .queue rfl).2 Background.oldestFirst_queue⟩

/-- A background that takes up the newest statement first releases the two statements of a page in
the other order. -/
example :
    let t : Table := ⟨"things", {}, by decide⟩
    let h := { scripted true fun _ => .ok () with background := some .newestFirst }
    let served := h.serveAll [t.plan (.page {})] { store := [.ok [[("id", .integer 3)]]] }
    served.2.executed.length = 2 ∧ served.2.released = served.2.executed.reverse :=
  ⟨rfl, rfl⟩

end Host

end Keyset
