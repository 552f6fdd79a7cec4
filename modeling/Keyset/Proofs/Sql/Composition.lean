import Keyset.Sql.Fragment

/-!
# The text of fragments that are put together

A fragment is a list of pieces, and its text is put together from the texts of its parts: between
two parts there is at most one space, which the pieces on both sides of it decide.

* `Fragment.pieces_join` : the pieces of fragments in a row.
* `Fragment.spell_append` : **the text of two rows of pieces, one after the other.**
* `Fragment.infix_spell` : so the text of a part stands in the text of the whole.
-/

namespace Keyset

namespace Fragment

/-! ### Pieces -/

theorem pieces_push (a : Fragment) (c : Piece) : (a.push c).pieces = a.pieces ++ [c] := rfl

theorem pieces_join_cons_cons (t : Token) (a b : Fragment) (as : List Fragment) :
    (join t (a :: b :: as)).pieces = a.pieces ++ [.token t] ++ (join t (b :: as)).pieces := by
  rw [join, pieces_append, pieces_push]

theorem pieces_join (t : Token) (as : List Fragment) :
    (join t as).pieces = List.intercalate [.token t] (as.map (·.pieces)) := by
  induction as with
  | nil => rfl
  | cons a as ih =>
    cases as with
    | nil => rw [join, List.map_singleton, List.intercalate_singleton]
    | cons b as =>
      rw [pieces_join_cons_cons, ih, List.map_cons, List.map_cons, List.map_cons,
        List.intercalate_cons_cons]

theorem infix_append_left (a b : Fragment) : a.pieces <:+: (a ++ b).pieces := by
  rw [pieces_append]
  exact (List.prefix_append _ _).isInfix

theorem infix_append_right (a b : Fragment) : b.pieces <:+: (a ++ b).pieces := by
  rw [pieces_append]
  exact (List.suffix_append _ _).isInfix

theorem infix_join (t : Token) {as : List Fragment} {a : Fragment} (ha : a ∈ as) :
    a.pieces <:+: (join t as).pieces := by
  induction as with
  | nil => cases ha
  | cons b as ih =>
    cases as with
    | nil =>
      obtain rfl := List.mem_singleton.1 ha
      exact List.infix_rfl
    | cons next as =>
      rw [pieces_join_cons_cons]
      rcases List.mem_cons.1 ha with rfl | ha
      · rw [List.append_assoc]
        exact (List.prefix_append _ _).isInfix
      · exact (ih ha).trans (List.suffix_append _ _).isInfix

/-! ### Text -/

/-- What is written between two rows of pieces. -/
def gap (as bs : List Piece) : List Char :=
  match as.getLast?, bs.head? with
  | some c, some next => if c.spaced next then [' '] else []
  | _, _ => []

theorem gap_eq_or (as bs : List Piece) : gap as bs = [] ∨ gap as bs = [' '] := by
  unfold gap
  split
  next c next _ _ => cases c.spaced next <;> simp
  next => exact .inl rfl

theorem gap_nil_left (bs : List Piece) : gap [] bs = [] := rfl

theorem gap_nil_right (as : List Piece) : gap as [] = [] := by
  unfold gap
  cases as.getLast? <;> rfl

theorem gap_eq_space {as bs : List Piece} {c next : Piece} (ha : as.getLast? = some c)
    (hb : bs.head? = some next) (h : c.spaced next = true) : gap as bs = [' '] := by
  simp only [gap, ha, hb, h, if_true]

/-- A row that is not empty hides what is before it. -/
theorem gap_cons_cons (c next : Piece) (as bs : List Piece) :
    gap (c :: next :: as) bs = gap (next :: as) bs := by
  unfold gap
  rw [List.getLast?_cons_cons]

/-- **The text of two rows of pieces, one after the other**, is the text of the first, the gap and
the text of the second. -/
theorem spell_append (d : Dialect) (as bs : List Piece) :
    spell d (as ++ bs) = spell d as ++ (gap as bs ++ spell d bs) := by
  induction as with
  | nil => rw [gap_nil_left, List.nil_append, spell, List.nil_append, List.nil_append]
  | cons c as ih =>
    cases as with
    | nil =>
      cases bs with
      | nil => rw [gap_nil_right, List.append_nil, spell, spell, List.append_nil, List.append_nil]
      | cons next bs => exact List.append_assoc _ _ _
    | cons next as =>
      rw [gap_cons_cons, List.cons_append, List.cons_append, spell, ← List.cons_append, ih, spell]
      simp only [List.append_assoc]

theorem infix_spell (d : Dialect) {as bs : List Piece} (h : as <:+: bs) :
    spell d as <:+: spell d bs := by
  obtain ⟨before, after, rfl⟩ := h
  rw [spell_append, spell_append, ← List.append_assoc (spell d before)]
  exact List.infix_append _ _ _

/-- Two texts that begin with one fragment go on alike, but for a space before what follows. -/
theorem exists_spaces_of_render_eq {d : Dialect} {a b left : Fragment}
    (h : (left ++ a).render d = (left ++ b).render d) :
    ∃ s ∈ [[], [' ']], ∃ t ∈ [[], [' ']], s ++ spell d a.pieces = t ++ spell d b.pieces := by
  have hspell := String.ofList_injective h
  rw [pieces_append, pieces_append, spell_append, spell_append] at hspell
  exact ⟨_, by simpa using gap_eq_or left.pieces a.pieces, _,
    by simpa using gap_eq_or left.pieces b.pieces, List.append_cancel_left hspell⟩

end Fragment

end Keyset
