import Keyset.Proofs.Sql.Composition
import Mathlib.Tactic.SplitIfs

/-!
# The algebra of fragments

Fragments are put together like the lists of their pieces, whichever way they are built, and the
text of what was put together is made of the texts of its parts.

* `Fragment.pieces_conjunction` : the pieces of a conjunction.
* `Fragment.spell_eq_flatMap` : a text is written from piece to piece, with a look at the next one.
* `Fragment.render_append` : **the text of two fragments, one after the other.**
* `Fragment.append_join_render` : all of this about the ways to build fragments and write them.
-/

namespace Keyset

namespace Fragment

variable {d : Dialect} {a b : Fragment}

/-! ### Building -/

theorem pieces_conjunction (as : List Fragment) :
    (conjunction as).pieces =
      List.intercalate [.token .AND] ((as.map (·.pieces)).filter (· ≠ [])) := by
  have hmembers : (as.filter fun a => !a.isEmpty) = as.filter ((· ≠ []) ∘ (·.pieces)) := by
    refine List.filter_congr fun a _ => ?_
    rw [Bool.eq_iff_iff]
    simp [isEmpty]
  rw [conjunction, pieces_join, List.filter_map, hmembers]

/-! ### Writing -/

/-- What is written after the piece at a place, for which the next piece is looked at. -/
def spaceAfter (as : List Piece) (i : Nat) : List Char :=
  match as[i]?, as[i + 1]? with
  | some c, some next => if c.spaced next then [' '] else []
  | _, _ => []

theorem spell_eq_flatMap (d : Dialect) (as : List Piece) :
    spell d as = as.zipIdx.flatMap fun (c, i) => c.spelling d ++ spaceAfter as i := by
  induction as with
  | nil => rfl
  | cons c as ih =>
    have hrest : (c :: as).zipIdx.flatMap (fun (c', i) => c'.spelling d ++ spaceAfter (c :: as) i) =
        c.spelling d ++ spaceAfter (c :: as) 0 ++ spell d as := by
      rw [ih, List.zipIdx_cons, List.zipIdx_succ, List.flatMap_cons, List.flatMap_map]
      rfl
    rw [hrest]
    cases as with
    | nil => simp [spell, spaceAfter]
    | cons next as => rfl

/-- **The text of two fragments, one after the other**, is the text of the first, a space if the two
pieces that meet ask for one, and the text of the second. -/
theorem render_append (d : Dialect) (ha : a.pieces ≠ []) (hb : b.pieces ≠ []) :
    (a ++ b).render d = a.render d ++
      (if (a.pieces.getLast ha).spaced (b.pieces.head hb) then " " else "") ++ b.render d := by
  have hgap : String.ofList (gap a.pieces b.pieces) =
      if (a.pieces.getLast ha).spaced (b.pieces.head hb) then " " else "" := by
    simp only [gap, List.getLast?_eq_some_getLast ha, List.head?_eq_some_head hb]
    split_ifs <;> rfl
  rw [render, pieces_append, spell_append, String.ofList_append, String.ofList_append, hgap,
    String.append_assoc]
  rfl

/-- **The ways to build fragments and to write them.**  Fragments are put together as the lists of
their pieces, and so they form a monoid, in which putting one after another in place and putting a
piece at the end are no operations of their own.  Fragments in a row are separated, empty ones as
well, and a conjunction has only those that are not empty.  The text is written from piece to piece,
and so it is made of the texts of the parts. -/
theorem append_join_render (a b c : Fragment) (x : Piece) (t : Token) (as : List Fragment)
    (d : Dialect) :
    (a ++ b).pieces = a.pieces ++ b.pieces ∧
    (a ++ b ++ c = a ++ (b ++ c) ∧ empty ++ a = a ∧ a ++ empty = a) ∧
    a.extend b = a ++ b ∧
    a.push x = a ++ single x ∧
    (join t as).pieces = List.intercalate [.token t] (as.map (·.pieces)) ∧
    (conjunction as).pieces =
      List.intercalate [.token .AND] ((as.map (·.pieces)).filter (· ≠ [])) ∧
    a.render d = String.ofList
      (a.pieces.zipIdx.flatMap fun (c, i) => c.spelling d ++ spaceAfter a.pieces i) ∧
    empty.render d = "" ∧
    ∀ (ha : a.pieces ≠ []) (hb : b.pieces ≠ []),
      (a ++ b).render d = a.render d ++
        (if (a.pieces.getLast ha).spaced (b.pieces.head hb) then " " else "") ++ b.render d := by
  refine ⟨pieces_append a b, ⟨append_assoc a b c, empty_append a, append_empty a⟩,
    extend_eq_append a b, push_eq_append a x, pieces_join t as, pieces_conjunction as, ?_, rfl,
    render_append d⟩
  rw [render, spell_eq_flatMap]

/-- Raw text that ends with a space of its own before a name, and raw text that does not. -/
theorem append_join_render_raw :
    (single (.raw "WHERE ") ++ ident "id").render .sqlite = "WHERE \x22id\x22" ∧
      (single (.raw "WHERE") ++ ident "id").render .sqlite = "WHERE \x22id\x22" := by
  obtain ⟨-, -, -, -, -, -, -, -, hspaced⟩ :=
    append_join_render (single (.raw "WHERE ")) (ident "id") empty .now .AND [] .sqlite
  obtain ⟨-, -, -, -, -, -, -, -, hbare⟩ :=
    append_join_render (single (.raw "WHERE")) (ident "id") empty .now .AND [] .sqlite
  constructor
  · rw [hspaced (List.cons_ne_nil _ _) (List.cons_ne_nil _ _)]
    decide
  · rw [hbare (List.cons_ne_nil _ _) (List.cons_ne_nil _ _)]
    decide

end Fragment

end Keyset
