import Keyset.Sql.Fragment

/-!
# What a text shows of its pieces

The text of a fragment shows the spelling of each piece and what decides on the spaces around it,
the *look* of the piece, and no more.  Fragments of pieces that look alike have the same text.

* `Fragment.render_eq_of_looks` : **fragments that look alike have the same text.**
* `Fragment.looks_join`, `Fragment.looks_conjunction` : fragments put together look as their parts
  do.
-/

namespace Keyset

/-- What the text of a row of pieces shows of one of them: its spelling and what decides on the
spaces around it. -/
def Piece.look (d : Dialect) (c : Piece) : List Char × Role × Bool × Bool :=
  (c.spelling d, c.role, c.opensWithSpace, c.endsWithSpace)

theorem Piece.look_eq_iff {d : Dialect} {c c' : Piece} : c.look d = c'.look d ↔
    c.spelling d = c'.spelling d ∧ c.role = c'.role ∧ c.opensWithSpace = c'.opensWithSpace ∧
      c.endsWithSpace = c'.endsWithSpace := by
  simp [look]

theorem Piece.look_literal {d : Dialect} {v w : Value} (h : v.spelling = w.spelling) :
    (literal v).look d = (literal w).look d := by
  simp [look, spelling, h, role, opensWithSpace, endsWithSpace]

namespace Fragment

variable {d : Dialect}

/-- What the text of a fragment shows of its pieces. -/
def looks (d : Dialect) (a : Fragment) : List (List Char × Role × Bool × Bool) :=
  a.pieces.map (Piece.look d)

theorem spell_eq_of_map_look {ps qs : List Piece}
    (h : ps.map (Piece.look d) = qs.map (Piece.look d)) : spell d ps = spell d qs := by
  induction ps generalizing qs with
  | nil => rw [List.map_eq_nil_iff.1 h.symm]
  | cons c ps ih =>
    obtain ⟨c', qs, rfl, hc, hps⟩ := List.map_eq_cons_iff.1 h.symm
    obtain ⟨hspelling, hrole, -, hends⟩ := Piece.look_eq_iff.1 hc.symm
    have htail := ih hps.symm
    cases ps with
    | nil =>
      rw [List.map_eq_nil_iff.1 hps]
      exact hspelling
    | cons b ps =>
      obtain ⟨b', qs, rfl, hb, -⟩ := List.map_eq_cons_iff.1 hps
      obtain ⟨-, hrole', hopens, -⟩ := Piece.look_eq_iff.1 hb.symm
      rw [spell, spell, hspelling, htail, Piece.spaced, Piece.spaced, hrole, hends, hrole', hopens]

theorem render_eq_of_looks {a b : Fragment} (h : a.looks d = b.looks d) :
    a.render d = b.render d := by
  rw [render, render, spell_eq_of_map_look h]

@[simp] theorem looks_append (a b : Fragment) : (a ++ b).looks d = a.looks d ++ b.looks d := by
  simp only [looks, pieces_append, List.map_append]

@[simp] theorem looks_push (a : Fragment) (c : Piece) :
    (a.push c).looks d = a.looks d ++ [c.look d] :=
  List.map_append

theorem isEmpty_eq_of_looks {a b : Fragment} (h : a.looks d = b.looks d) :
    a.isEmpty = b.isEmpty := by
  have hempty (a : Fragment) : a.isEmpty = (a.looks d).isEmpty := (List.isEmpty_map).symm
  rw [hempty, hempty, h]

theorem looks_join {t : Token} {as bs : List Fragment} (h : as.map (looks d) = bs.map (looks d)) :
    (join t as).looks d = (join t bs).looks d := by
  induction as generalizing bs with
  | nil => rw [List.map_eq_nil_iff.1 h.symm]
  | cons a as ih =>
    obtain ⟨b, bs, rfl, hb, hbs⟩ := List.map_eq_cons_iff.1 h.symm
    have htail := ih hbs.symm
    cases as with
    | nil =>
      rw [List.map_eq_nil_iff.1 hbs]
      exact hb.symm
    | cons a' as =>
      obtain ⟨b', bs, rfl, -, -⟩ := List.map_eq_cons_iff.1 hbs
      rw [join, join, looks_append, looks_append, looks_push, looks_push, hb, htail]

theorem looks_conjunction {as bs : List Fragment} (h : as.map (looks d) = bs.map (looks d)) :
    (conjunction as).looks d = (conjunction bs).looks d := by
  refine looks_join ?_
  induction as generalizing bs with
  | nil => rw [List.map_eq_nil_iff.1 h.symm]
  | cons a as ih =>
    obtain ⟨b, bs, rfl, hb, hbs⟩ := List.map_eq_cons_iff.1 h.symm
    rw [List.filter_cons, List.filter_cons, isEmpty_eq_of_looks hb.symm]
    split
    · rw [List.map_cons, List.map_cons, hb, ih hbs.symm]
    · exact ih hbs.symm

end Fragment

end Keyset
