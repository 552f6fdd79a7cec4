import Keyset.Proofs.Sql.Composition
import Keyset.Proofs.Sql.Conditions
import Keyset.Query.Statement

/-!
# The columns of a selection

A selection names its columns in their order, or has a star for all of them, and nothing else stands
between `SELECT` and `FROM`.

* `Clause.columns_eq` : the columns as a fragment.
* `Statement.render_select` : **the text of a selection up to its table.**
-/

namespace Keyset

open Fragment

theorem Fragment.ends_names (name : String) (names : List String) :
    ∃ last, (join .comma ((name :: names).map ident)).pieces.head? = some (.ident name) ∧
      (join .comma ((name :: names).map ident)).pieces.getLast? = some (.ident last) := by
  induction names generalizing name with
  | nil => exact ⟨name, rfl, rfl⟩
  | cons next names ih =>
    obtain ⟨last, -, hlast⟩ := ih next
    rw [List.map_cons, List.map_cons, pieces_join_cons_cons, ← List.map_cons]
    refine ⟨last, rfl, ?_⟩
    rw [List.getLast?_append, hlast]
    rfl

theorem Fragment.spell_names (d : Dialect) (names : List String) :
    spell d (join .comma (names.map ident)).pieces =
      List.intercalate ", ".toList (names.map d.name) := by
  induction names with
  | nil => rfl
  | cons name names ih =>
    cases names with
    | nil => exact List.intercalate_singleton.symm
    | cons next names =>
      obtain ⟨-, hhead, -⟩ := ends_names next names
      have hgap : gap [.ident name, .token .comma]
          (join .comma ((next :: names).map ident)).pieces = [' '] :=
        gap_eq_space rfl hhead rfl
      have hjoin : (join .comma ((name :: next :: names).map ident)).pieces =
          [.ident name, .token .comma] ++ (join .comma ((next :: names).map ident)).pieces :=
        pieces_join_cons_cons _ _ _ _
      have hnames : List.intercalate ", ".toList ((name :: next :: names).map d.name) =
          d.name name ++ ", ".toList ++
            List.intercalate ", ".toList ((next :: names).map d.name) :=
        List.intercalate_cons_cons
      rw [hjoin, hnames, spell_append, hgap, ih]
      simp [spell, Piece.spaced, Piece.role, Piece.spelling, Role.spaced, Token.text]

/-- Columns are selected by their names, or all of them by a star if none is included. -/
theorem Clause.columns_eq (cs : List (String × Bool)) :
    columns cs = if Query.included cs = [] then token .star
      else join .comma ((Query.included cs).map ident) := by
  have hne : ∀ a ∈ (Query.included cs).map ident, a.isEmpty = false := by
    intro a ha
    obtain ⟨name, -, rfl⟩ := List.mem_map.1 ha
    rfl
  simp only [columns, isEmpty_join hne, List.isEmpty_map, List.isEmpty_iff]

theorem Clause.columns_eq_star_iff {cs : List (String × Bool)} :
    columns cs = token .star ↔ Query.included cs = [] := by
  rw [columns_eq]
  cases Query.included cs with
  | nil => simp
  | cons name names =>
    obtain ⟨-, hhead, -⟩ := ends_names name names
    rw [if_neg (List.cons_ne_nil name names)]
    refine iff_of_false (fun hstar => ?_) (List.cons_ne_nil name names)
    rw [hstar] at hhead
    cases hhead

theorem Clause.spaced_columns (cs : List (String × Bool)) : ∃ first last,
    (columns cs).pieces.head? = some first ∧ (columns cs).pieces.getLast? = some last ∧
      (Piece.token .SELECT).spaced first = true ∧ last.spaced (.token .FROM) = true := by
  rw [columns_eq]
  cases Query.included cs with
  | nil => exact ⟨_, _, rfl, rfl, rfl, rfl⟩
  | cons name names =>
    obtain ⟨last, hhead, hlast⟩ := ends_names name names
    exact ⟨_, _, hhead, hlast, rfl, rfl⟩

theorem Clause.spell_columns (d : Dialect) (cs : List (String × Bool)) :
    spell d (columns cs).pieces = if Query.included cs = [] then ['*']
      else List.intercalate ", ".toList ((Query.included cs).map d.name) := by
  rw [columns_eq]
  split
  · rfl
  · exact spell_names d _

/-- **The text of a selection begins with the columns that it selects.** -/
theorem Statement.render_select (d : Dialect) (table : String) (q : Query) (j : Option Join) :
    ∃ rest, (select table q j).render d = String.ofList ("SELECT ".toList ++
      (if Query.included q.columns = [] then ['*']
        else List.intercalate ", ".toList ((Query.included q.columns).map d.name)) ++
      " FROM ".toList ++ rest) := by
  obtain ⟨first, last, hfirst, hlast, hbefore, hafter⟩ := Clause.spaced_columns q.columns
  obtain ⟨more, hpieces⟩ : ∃ more, (select table q j).fragment.pieces =
      [.token .SELECT] ++ ((Clause.columns q.columns).pieces ++
        .token .FROM :: .ident table :: more) :=
    ⟨_, by simp only [fragment, source, pieces_append, pieces_push, List.append_assoc]; rfl⟩
  refine ⟨spell d (.ident table :: more), ?_⟩
  have hselect : gap [.token .SELECT] ((Clause.columns q.columns).pieces ++
      .token .FROM :: .ident table :: more) = [' '] :=
    gap_eq_space rfl (by rw [List.head?_append, hfirst]; rfl) hbefore
  have hfrom : gap (Clause.columns q.columns).pieces (.token .FROM :: .ident table :: more) =
      [' '] :=
    gap_eq_space hlast rfl hafter
  have htail : spell d (.token .FROM :: .ident table :: more) =
      "FROM ".toList ++ spell d (.ident table :: more) := rfl
  rw [render, Fragment.render, hpieces, spell_append, hselect, spell_append, hfrom,
    Clause.spell_columns, htail]
  simp only [List.append_assoc]
  rfl

end Keyset
