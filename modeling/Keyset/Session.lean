import Keyset.Plan

/-!
# Sessions

A host runs plans. Each statement is run by the store and afterwards, if the host has a background,
handed to it to be released. Releases happen between plans, in the order in which the background
takes the statements up; nothing depends on that order or on how a release ends.

* `Background.queue`, `Background.newestFirst` : two orders in which statements are taken up.
* `Host.run_bind` : a plan made of two runs as the one after the other.
-/

namespace Keyset

/-- A background, in which the statements that are handed to it are released. -/
structure Background where
  /-- The statements that wait, in the order in which they are taken up. It may depend on what was
  released before. -/
  order (released waiting : List Statement) : List Statement
  /-- Each statement that waits is taken up, and only once. -/
  order_perm (released waiting : List Statement) : (order released waiting).Perm waiting

namespace Background

/-- Statements are taken up in the order in which they were handed over. -/
def OldestFirst (b : Background) : Prop := ∀ released waiting, b.order released waiting = waiting

/-- The background that takes up the oldest statement first. -/
def queue : Background where
  order _ waiting := waiting
  order_perm _ _ := .rfl

/-- The background that takes up the newest statement first, and then the others, from the oldest
one on. -/
def newestFirst : Background where
  order _ waiting := waiting.getLast?.toList ++ waiting.dropLast
  order_perm _ waiting := by
    cases h : waiting.getLast? with
    | none => rw [List.getLast?_eq_none_iff.1 h]; rfl
    | some s =>
      obtain ⟨rest, rfl⟩ := List.getLast?_eq_some_iff.1 h
      rw [List.dropLast_concat]
      exact List.perm_append_comm

theorem oldestFirst_queue : queue.OldestFirst := fun _ _ => rfl

end Background

/-- Where plans run. -/
structure Host (σ : Type) where
  /-- Runs a statement in a state of the store. -/
  execute : Statement → σ → Reply × σ
  /-- Lets go of what the store keeps for a statement, after those that were released before. -/
  release : List Statement → Statement → Except Fault Unit
  /-- The background in which statements are released, if there is one. -/
  background : Option Background

/-- What happened so far. -/
structure Session (σ : Type) where
  /-- The state of the store. -/
  store : σ
  /-- The statements that were run, in their order. -/
  executed : List Statement := []
  /-- The statements that wait to be released. -/
  pending : List Statement := []
  /-- The statements that were released, in their order. -/
  released : List Statement := []

namespace Host

variable {σ α β : Type} (h : Host σ)

/-- Runs one statement. -/
def submit (s : Statement) (x : Session σ) : Reply × Session σ :=
  let (reply, store) := h.execute s x.store
  let pending := if h.background.isSome then x.pending ++ [s] else x.pending
  (reply, { x with store, executed := x.executed ++ [s], pending })

/-- Runs a plan. -/
def run : Plan α → Session σ → Except Fault α × Session σ
  | .done result, x => (result, x)
  | .ask s next, x => run (next (h.submit s x).1) (h.submit s x).2

/-- Releases one statement. A release that fails counts like one that does not. -/
def releaseOne (x : Session σ) (s : Statement) : Session σ :=
  match h.release x.released s with
  | .ok () => { x with released := x.released ++ [s] }
  | .error _ => { x with released := x.released ++ [s] }

/-- Releases the statements that wait, as the background takes them up. -/
def settle (x : Session σ) : Session σ :=
  match h.background with
  | none => x
  | some b => (b.order x.released x.pending).foldl h.releaseOne { x with pending := [] }

/-- Runs a plan and lets the background finish. -/
def serve (p : Plan α) (x : Session σ) : Except Fault α × Session σ :=
  ((h.run p x).1, h.settle (h.run p x).2)

/-- Serves plans one after another. -/
def serveAll : List (Plan α) → Session σ → List (Except Fault α) × Session σ
  | [], x => ([], x)
  | p :: ps, x =>
    let (result, x) := h.serve p x
    let (results, x) := serveAll ps x
    (result :: results, x)

theorem run_bind (p : Plan α) (f : α → Plan β) (x : Session σ) :
    h.run (p.bind f) x = match h.run p x with
      | (.ok a, y) => h.run (f a) y
      | (.error e, y) => (.error e, y) := by
  induction p generalizing x with
  | done r => cases r <;> rfl
  | ask s next ih => simp only [Plan.bind, run, ih]

/-- The host that answers from a list of replies, and with no rows when the list is used up. Its
background, if there is to be one, takes up the oldest statement first. -/
def scripted (background : Bool) (release : Statement → Except Fault Unit) :
    Host (List Reply) where
  execute _ replies := (replies.head?.getD (.ok []), replies.tail)
  release _ := release
  background := if background then some .queue else none

end Host

end Keyset
