import Keyset.Proofs.Json.Operators

/-!
# Cursors that are null

A cursor of a request may be under either of two names.  One that is null counts as absent, but only
after the name was chosen: a null under the first name hides what is under the other one
(`Json.hidden?`).  Where a null that is left out hides nothing, the request is read as before.

* `PageRequest.ofJson_object` : the cursors are read apart from the other parts.
* `Json.cursor?_without` : leaving out a null shows the cursor that it hides, and nothing else.
* `PageRequest.ofJson_without_nulls` : **which nulls may be left out, and what the others hide.**
-/

namespace Keyset

namespace Json

/-- The names that the cursors of a request may have. -/
def cursorNames : List String := ["sinceId", "since_id", "maxId", "max_id"]

/-- The cursor under the other one of two names that is hidden by a null under the first one, if
this null is among the members to be left out. -/
def hidden? (dropped : List String) (first other : String) (members : List (String × Json)) :
    Option Json :=
  if first ∈ dropped then (members.lookup other).filter fun j => !j.isNull else none

variable {dropped : List String} {members : List (String × Json)}

/-! ### Members that are left out -/

theorem lookup_without_of_mem {names : List String} {name : String} (hname : name ∈ names)
    (members : List (String × Json)) : (without names members).lookup name = none := by
  rw [List.lookup_eq_none_iff]
  intro m hm
  have hother : m.1 ∉ names := by simpa using (List.mem_filter.1 hm).2
  rw [bne_iff_ne]
  rintro rfl
  exact hother hname

theorem without_without {names : List String} (hsub : dropped ⊆ names) :
    without names (without dropped members) = without names members := by
  rw [without, without, List.filter_filter]
  refine List.filter_congr fun m _ => ?_
  by_cases hm : m.1 ∈ dropped
  · simp [hsub hm]
  · simp [hm]

/-- **Leaving out nulls shows the cursor that one of them hides**, and nothing else. -/
theorem cursor?_without (nulls : ∀ name ∈ dropped, members.lookup name = some null)
    (first other : String) :
    cursor? first other (without dropped members) =
      (hidden? dropped first other members).or (cursor? first other members) := by
  unfold cursor? either? hidden?
  by_cases hfirst : first ∈ dropped
  · rw [if_pos hfirst, nulls first hfirst, lookup_without_of_mem hfirst]
    by_cases hother : other ∈ dropped
    · rw [nulls other hother, lookup_without_of_mem hother]
      rfl
    · rw [lookup_without hother]
      exact (Option.or_none).symm
  · rw [if_neg hfirst, lookup_without hfirst]
    by_cases hother : other ∈ dropped
    · rw [nulls other hother, lookup_without_of_mem hother]
      cases members.lookup first <;> rfl
    · rw [lookup_without hother, Option.none_or]

theorem cursor?_eq_none_of_hidden? (nulls : ∀ name ∈ dropped, members.lookup name = some null)
    {first other : String} {j : Json} (h : hidden? dropped first other members = some j) :
    cursor? first other members = none := by
  unfold hidden? at h
  split_ifs at h with hfirst
  rw [cursor?, either?, nulls first hfirst]
  rfl

/-- What is read of a cursor when the null that hides it is left out, and what is read when it is
there. -/
structure Conceals (hidden : Option Json) (shown read : Except Fault (Option Cursor)) : Prop where
  /-- The cursor that is hidden is lost, and any other one is kept. -/
  ok : ∀ c, shown = .ok c → read = .ok (if hidden.isSome then none else c)
  /-- What is hidden is a cursor. -/
  isSome : ∀ c, shown = .ok c → hidden.isSome = true → c.isSome = true
  /-- No other fault is lost than that of the cursor that is hidden. -/
  error : (∀ j ∈ hidden, j.IsScalar) → ∀ e, shown = .error e → read = .error e
  /-- What hides nothing changes nothing. -/
  same : hidden = none → shown = read

theorem conceals (nulls : ∀ name ∈ dropped, members.lookup name = some null)
    (field first other : String) :
    Conceals (hidden? dropped first other members)
      (Cursor.ofMember field (either? first other (without dropped members)))
      (Cursor.ofMember field (either? first other members)) := by
  rw [ofMember_either?, ofMember_either?, cursor?_without nulls]
  cases hhidden : hidden? dropped first other members with
  | none =>
    rw [Option.none_or]
    refine ⟨fun c h => ?_, fun _ _ h => absurd h Bool.false_ne_true, fun _ e h => h, fun _ => rfl⟩
    simpa using h
  | some j =>
    rw [cursor?_eq_none_of_hidden? nulls hhidden, Option.some_or]
    refine ⟨fun c _ => rfl, fun c h _ => ?_, fun hscalar e h => ?_,
      fun h => (Option.some_ne_none j h).elim⟩
    · obtain ⟨c', -, rfl⟩ := (((reads_cursor field j).map some).ok_iff c).1 h
      rfl
    · obtain ⟨hnoScalar, -⟩ := (((reads_cursor field j).map some).error_iff e).1 h
      exact absurd (hscalar j rfl) hnoScalar

end Json

namespace PageRequest

open Json

variable {dropped : List String} {members : List (String × Json)}

/-- The request with other cursors, up to the first fault. -/
def withCursors (since bound : Except Fault (Option Cursor)) (others : Except Fault PageRequest) :
    Except Fault PageRequest := do
  let since ← since
  let bound ← bound
  let r ← others
  return { r with since, bound }

/-- **The cursors are read apart from the other parts**, and before them. -/
theorem ofJson_object (members : List (String × Json)) :
    ofJson (object members) =
      withCursors (Cursor.ofMember "sinceId" (either? "sinceId" "since_id" members))
        (Cursor.ofMember "maxId" (either? "maxId" "max_id" members))
        (ofJson (object (without cursorNames members))) := by
  have hkept (name : String) (hname : name ∉ cursorNames) :
      (without cursorNames members).lookup name = members.lookup name :=
    lookup_without hname members
  have hnone (first other : String) (hfirst : first ∈ cursorNames) (hother : other ∈ cursorNames) :
      either? first other (without cursorNames members) = none := by
    rw [either?, lookup_without_of_mem hfirst, lookup_without_of_mem hother]
    rfl
  have hsame (first other : String) (hfirst : first ∉ cursorNames) (hother : other ∉ cursorNames) :
      either? first other (without cursorNames members) = either? first other members := by
    rw [either?, hkept first hfirst, hkept other hother]
    rfl
  have hread (members : List (String × Json)) :
      asObject "page request" (object members) = .ok members := rfl
  have habsent (field : String) : Cursor.ofMember field none = .ok none := rfl
  have hok {α β : Type} (a : α) (next : α → Except Fault β) : (Except.ok a >>= next) = next a := rfl
  rw [ofJson, ofJson, withCursors]
  simp only [hread, hok, bind_assoc, pure_bind, habsent,
    hnone "sinceId" "since_id" (by decide) (by decide),
    hnone "maxId" "max_id" (by decide) (by decide),
    hsame "where" "predicate" (by decide) (by decide),
    hsame "columns" "projection" (by decide) (by decide),
    hsame "keyField" "key_field" (by decide) (by decide), hkept "limit" (by decide),
    hkept "reverse" (by decide)]

section

variable {hidden hidden' : Option Json} {shown read shown' read' : Except Fault (Option Cursor)}
  {others : Except Fault PageRequest} {r : PageRequest} {e : Fault}

theorem withCursors_eq_ok_iff : withCursors shown shown' others = .ok r ↔
    ∃ since bound r', shown = .ok since ∧ shown' = .ok bound ∧ others = .ok r' ∧
      r = { r' with since, bound } := by
  cases shown <;> cases shown' <;> cases others <;>
    simp [withCursors, Bind.bind, Except.bind, Pure.pure, Except.pure, eq_comm]

theorem withCursors_eq_error_iff : withCursors shown shown' others = .error e ↔
    shown = .error e ∨ ∃ since, shown = .ok since ∧
      (shown' = .error e ∨ ∃ bound, shown' = .ok bound ∧ others = .error e) := by
  cases shown <;> cases shown' <;> cases others <;>
    simp [withCursors, Bind.bind, Except.bind, Pure.pure, Except.pure]

theorem withCursors_ok_of_conceals (since : Conceals hidden shown read)
    (bound : Conceals hidden' shown' read') (h : withCursors shown shown' others = .ok r) :
    withCursors read read' others = .ok { r with
      since := if hidden.isSome then none else r.since
      bound := if hidden'.isSome then none else r.bound } := by
  obtain ⟨c, c', r', hsince, hbound, hothers, rfl⟩ := withCursors_eq_ok_iff.1 h
  exact withCursors_eq_ok_iff.2 ⟨_, _, r', since.ok c hsince, bound.ok c' hbound, hothers, rfl⟩

theorem withCursors_error_of_conceals (since : Conceals hidden shown read)
    (bound : Conceals hidden' shown' read') (hscalar : ∀ j ∈ hidden, j.IsScalar)
    (hscalar' : ∀ j ∈ hidden', j.IsScalar) (h : withCursors shown shown' others = .error e) :
    withCursors read read' others = .error e := by
  rw [withCursors_eq_error_iff] at h ⊢
  rcases h with h | ⟨c, hsince, h | ⟨c', hbound, h⟩⟩
  · exact .inl (since.error hscalar e h)
  · exact .inr ⟨_, since.ok c hsince, .inl (bound.error hscalar' e h)⟩
  · exact .inr ⟨_, since.ok c hsince, .inr ⟨_, bound.ok c' hbound, h⟩⟩

theorem withCursors_error_iff_of_conceals (since : Conceals hidden shown read)
    (bound : Conceals hidden' shown' read') (hscalar : ∀ j ∈ hidden, j.IsScalar)
    (hscalar' : ∀ j ∈ hidden', j.IsScalar) :
    withCursors shown shown' others = .error e ↔ withCursors read read' others = .error e := by
  refine ⟨withCursors_error_of_conceals since bound hscalar hscalar', fun h => ?_⟩
  cases hshown : withCursors shown shown' others with
  | ok r =>
    rw [withCursors_ok_of_conceals since bound hshown] at h
    cases h
  | error e' =>
    rw [withCursors_error_of_conceals since bound hscalar hscalar' hshown] at h
    exact h

/-- A request is read alike iff no cursor is hidden, unless there is a fault. -/
theorem withCursors_eq_iff_of_conceals (since : Conceals hidden shown read)
    (bound : Conceals hidden' shown' read') :
    withCursors shown shown' others = withCursors read read' others ↔
      (hidden = none ∧ hidden' = none) ∨ ∃ e, withCursors shown shown' others = .error e ∧
        withCursors read read' others = .error e := by
  constructor
  · intro hsame
    cases hshown : withCursors shown shown' others with
    | error e => exact .inr ⟨e, rfl, hsame ▸ hshown⟩
    | ok r =>
      have hread := withCursors_ok_of_conceals since bound hshown
      rw [← hsame, hshown] at hread
      obtain ⟨c, c', r', hc, hc', -, rfl⟩ := withCursors_eq_ok_iff.1 hshown
      obtain ⟨hlost, hlost'⟩ : c = (if hidden.isSome then none else c) ∧
          c' = if hidden'.isSome then none else c' := by simpa using hread
      refine .inl ⟨Option.not_isSome_iff_eq_none.1 fun h => ?_,
        Option.not_isSome_iff_eq_none.1 fun h => ?_⟩
      · have hsome := since.isSome c hc h
        rw [hlost, if_pos h] at hsome
        cases hsome
      · have hsome := bound.isSome c' hc' h
        rw [hlost', if_pos h] at hsome
        cases hsome
  · rintro (⟨hsince, hbound⟩ | ⟨e, hshown, hread⟩)
    · rw [since.same hsince, bound.same hbound]
    · rw [hshown, hread]

end

/-- **Which nulls may be left out, and what the others hide.**  Leaving out members that are null,
under names of cursors, changes what is read iff one of them hides a cursor, unless there is one and
the same fault either way.  If the request can be read without them, it can be read with them, and
the cursors that they hide are lost.  If what they hide are cursors, the faults are the same. -/
theorem ofJson_without_nulls
    (nulls : ∀ name ∈ dropped, name ∈ cursorNames ∧ members.lookup name = some .null) :
    let since := hidden? dropped "sinceId" "since_id" members
    let bound := hidden? dropped "maxId" "max_id" members
    (ofJson (object (without dropped members)) = ofJson (object members) ↔
      (since = none ∧ bound = none) ∨
        ∃ e, ofJson (object (without dropped members)) = .error e ∧
          ofJson (object members) = .error e) ∧
    (∀ r, ofJson (object (without dropped members)) = .ok r →
      ofJson (object members) = .ok { r with
        since := if since.isSome then none else r.since
        bound := if bound.isSome then none else r.bound }) ∧
    ((∀ j ∈ since, j.IsScalar) → (∀ j ∈ bound, j.IsScalar) → ∀ e,
      ofJson (object (without dropped members)) = .error e ↔
        ofJson (object members) = .error e) := by
  intro since bound
  have hsince := conceals (fun name h => (nulls name h).2) "sinceId" "sinceId" "since_id"
  have hbound := conceals (fun name h => (nulls name h).2) "maxId" "maxId" "max_id"
  have hothers : without cursorNames (without dropped members) = without cursorNames members :=
    without_without fun name h => (nulls name h).1
  rw [ofJson_object (without dropped members), ofJson_object members, hothers]
  exact ⟨withCursors_eq_iff_of_conceals hsince hbound,
    fun r => withCursors_ok_of_conceals hsince hbound,
    fun hscalar hscalar' e => withCursors_error_iff_of_conceals hsince hbound hscalar hscalar'⟩

/-- Cursors beside nulls of the other name.  The null under the second name hides nothing, and the
one under the first name hides the end of the walk. -/
theorem ofJson_without_nulls_either :
    let members := [("sinceId", .integer 5), ("maxId", .null), ("since_id", .null),
      ("max_id", .integer 9)]
    ofJson (object (without ["since_id"] members)) = ofJson (object members) ∧
      ofJson (object (without ["since_id", "maxId"] members)) ≠ ofJson (object members) := by
  intro members
  have hsecond : ∀ name ∈ ["since_id"], name ∈ cursorNames ∧ members.lookup name = some .null :=
    List.forall_mem_singleton.2 ⟨by decide, rfl⟩
  have hfirst : ∀ name ∈ ["since_id", "maxId"],
      name ∈ cursorNames ∧ members.lookup name = some .null :=
    List.forall_mem_cons.2 ⟨hsecond _ List.mem_cons_self,
      List.forall_mem_singleton.2 ⟨by decide, rfl⟩⟩
  refine ⟨(ofJson_without_nulls hsecond).1.2 (.inl ⟨rfl, rfl⟩), fun hsame => ?_⟩
  obtain ⟨-, hbound⟩ | ⟨e, hfault, -⟩ := (ofJson_without_nulls hfirst).1.1 hsame
  · cases hbound
  · cases hfault

/-- A null under the first name hides the cursor under the other one. -/
theorem ofJson_hides_cursor :
    let members := [("sinceId", .null), ("since_id", .integer 5)]
    ofJson (object members) = .ok {} ∧
      ofJson (object (without ["sinceId"] members)) =
        .ok { since := some (.ofKey (.integer 5)) } ∧
      ofJson (object (without ["sinceId"] members)) ≠ ofJson (object members) := by
  intro members
  have hhidden : ofJson (object members) = .ok {} := rfl
  have hshown : ofJson (object (without ["sinceId"] members)) =
      .ok { since := some (.ofKey (.integer 5)) } := rfl
  refine ⟨hhidden, hshown, ?_⟩
  rw [hhidden, hshown]
  nofun

end PageRequest

end Keyset
