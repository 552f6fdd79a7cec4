import Keyset.Query.Statement
import Keyset.Row

/-!
# Plans

A plan asks the store for statements, one at a time, and goes on with each reply. It says all that
an operation does without running anything.

* `Plan.bind_assoc` and the laws beside it : plans are a lawful monad.
-/

namespace Keyset

/-- What the store answers to a statement. -/
abbrev Reply := Except Fault (List Row)

/-- A sequence of statements that depends on the replies. -/
inductive Plan (α : Type) where
  /-- The plan is over. -/
  | done (result : Except Fault α)
  /-- A statement is asked for. -/
  | ask (s : Statement) (next : Reply → Plan α)

namespace Plan

variable {α β γ : Type}

/-- The plan that goes on with the result of another one. A fault ends it. -/
def bind (p : Plan α) (f : α → Plan β) : Plan β :=
  match p with
  | done (.ok a) => f a
  | done (.error e) => done (.error e)
  | ask s next => ask s fun r => (next r).bind f

instance : Monad Plan where
  pure a := done (.ok a)
  bind := bind

/-- The plan that asks for one statement and gives its rows. -/
def ofStatement (s : Statement) : Plan (List Row) := ask s done

/-- The plan that asks for what trusted text says. -/
def verbatim (text : String) : Plan (List Row) := ofStatement (.verbatim text)

/-- The plan that asks for nothing. -/
def lift (result : Except Fault α) : Plan α := done result

theorem pure_bind (a : α) (f : α → Plan β) : (pure a : Plan α).bind f = f a := rfl

theorem bind_pure (p : Plan α) : p.bind pure = p := by
  induction p with
  | done r => cases r <;> rfl
  | ask s next ih => simp only [bind, ih]

theorem bind_assoc (p : Plan α) (f : α → Plan β) (g : β → Plan γ) :
    (p.bind f).bind g = p.bind fun a => (f a).bind g := by
  induction p with
  | done r => cases r <;> rfl
  | ask s next ih => simp only [bind, ih]

instance : LawfulMonad Plan :=
  LawfulMonad.mk' Plan bind_pure pure_bind bind_assoc

end Plan

end Keyset
