import Keyset.Proofs.Sql.Rendering
import Keyset.Proofs.Value.Literal
import Keyset.Query.Clause

/-!
# The lexemes of fragments

The lexemes of a fragment follow the way it was put together, as long as it is `plain`, which means
that it holds no raw text.

* `Fragment.lexemes_of_render` : the text of a plain fragment is read as its lexemes.
* `Fragment.lexemes_join` and the laws beside it : the lexemes of fragments put together.
* `Value.literal?_lexeme` : **the lexeme of a value has the literal of the value.**
-/

namespace Keyset

open Decimal Fragment Lexeme

/-! ### Lexemes of fragments -/

namespace Fragment

variable {clock : List Lexeme}

/-- The lexemes of the pieces of a fragment. -/
def lexemes (clock : List Lexeme) (a : Fragment) : List Lexeme :=
  a.pieces.flatMap (Piece.lexemes clock)

/-- The fragment holds no raw text. -/
def plain (a : Fragment) : Bool := a.pieces.all fun c => !c.isRaw

theorem lexemes_of_render {a : Fragment} (h : a.plain = true) (d : Dialect) :
    lex d (a.render d).toList = some (a.lexemes d.clock) := by
  rw [render, String.toList_ofList, lex_spell]
  · rfl
  · intro c hc
    simpa using List.all_eq_true.1 h c hc

@[simp] theorem lexemes_empty : empty.lexemes clock = [] := rfl

@[simp] theorem lexemes_single (c : Piece) : (single c).lexemes clock = c.lexemes clock :=
  List.flatMap_singleton _ c

@[simp] theorem lexemes_token (t : Token) : (token t).lexemes clock = [t.lexeme] := rfl

@[simp] theorem lexemes_tokens (ts : List Token) :
    (tokens ts).lexemes clock = ts.map Token.lexeme := by
  rw [lexemes, tokens, List.flatMap_map, ← List.flatMap_pure_eq_map]
  rfl

@[simp] theorem lexemes_ident (s : String) : (ident s).lexemes clock = [.name s] := rfl

@[simp] theorem lexemes_literal (v : Value) : (literal v).lexemes clock = [v.lexeme] := rfl

@[simp] theorem lexemes_append (a b : Fragment) :
    (a ++ b).lexemes clock = a.lexemes clock ++ b.lexemes clock := by
  simp only [lexemes, pieces_append, List.flatMap_append]

@[simp] theorem lexemes_push (a : Fragment) (c : Piece) :
    (a.push c).lexemes clock = a.lexemes clock ++ c.lexemes clock := by
  rw [push_eq_append, lexemes_append, lexemes_single]

@[simp] theorem lexemes_join (t : Token) (as : List Fragment) :
    (join t as).lexemes clock = List.intercalate [t.lexeme] (as.map (lexemes clock)) := by
  induction as with
  | nil => rfl
  | cons a as ih =>
    cases as with
    | nil => rw [join, List.map_singleton, List.intercalate_singleton]
    | cons b as =>
      rw [join, lexemes_append, lexemes_push, ih, List.map_cons, List.map_cons, List.map_cons,
        List.intercalate_cons_cons]
      rfl

@[simp] theorem lexemes_parens (a : Fragment) :
    a.parens.lexemes clock = [.sign "("] ++ (a.lexemes clock ++ [.sign ")"]) := by
  rw [parens, lexemes_append, lexemes_append, List.append_assoc]
  rfl

@[simp] theorem lexemes_getD {α : Type} (x : Option α) (f : α → Fragment) :
    ((x.map f).getD empty).lexemes clock = (x.map fun a => (f a).lexemes clock).getD [] := by
  cases x <;> rfl

@[simp] theorem plain_append (a b : Fragment) : (a ++ b).plain = (a.plain && b.plain) := by
  simp only [plain, pieces_append, List.all_append]

@[simp] theorem plain_push (a : Fragment) (c : Piece) :
    (a.push c).plain = (a.plain && !c.isRaw) := by
  rw [push_eq_append, plain_append]
  simp [single, plain]

@[simp] theorem plain_tokens (ts : List Token) : (tokens ts).plain = true := by
  simp [plain, tokens, Piece.isRaw]

@[simp] theorem plain_single (c : Piece) : (single c).plain = !c.isRaw := Bool.and_true _

@[simp] theorem plain_getD {α : Type} (x : Option α) (f : α → Fragment) :
    ((x.map f).getD empty).plain = x.all fun a => (f a).plain := by
  cases x <;> rfl

@[simp] theorem plain_join (t : Token) (as : List Fragment) :
    (join t as).plain = as.all plain := by
  induction as with
  | nil => rfl
  | cons a as ih =>
    cases as with
    | nil => exact (Bool.and_true _).symm
    | cons b as => simp [join, ih, Piece.isRaw]

end Fragment

/-! ### Literals and operators -/

/-- The operator that a sign stands for. -/
def Operator.ofSign? : String → Option Operator
  | "=" => some eq
  | "<>" => some ne
  | "<" => some lt
  | ">" => some gt
  | "<=" => some le
  | ">=" => some ge
  | _ => none

/-- The literal that is one lexeme. -/
def Lexeme.literal? : Lexeme → Option String
  | word w => if w = "NULL" ∨ w = "TRUE" ∨ w = "FALSE" then some w else none
  | string s => some (String.ofList (Text.quote Value.quoteMark s.toList))
  | number negative x => some (String.ofList ((if negative then ['-'] else []) ++ x.text))
  | _ => none

/-- A numeral without superfluous zeros has the text of the numeral with the digits that are
written. -/
theorem Decimal.text_written_shortest (L : BinaryLayout) (rank : ℕ) :
    (shortest L rank).written.text = (shortest L rank).text := by
  by_cases h : 0 ≤ (shortest L rank).exponent
  · rw [text_shortest h]
    simp [Numeral.written, h, Numeral.text]
  · rw [Numeral.written, if_neg h]

/-- **The lexeme of a value has the literal of the value.** -/
theorem Value.literal?_lexeme (v : Value) : v.lexeme.literal? = some v.literal := by
  cases v with
  | null => rfl
  | bool b => cases b <;> rfl
  | integer n =>
    have htext (k : ℕ) : Numeral.text ⟨k, 0⟩ = natText k := by simp [Numeral.text]
    rw [lexeme, Lexeme.literal?, htext, literal, spelling, intText_eq]
  | real x =>
    cases x with
    | nan => rfl
    | infinite negative => rfl
    | finite negative rank =>
      rw [lexeme, Lexeme.literal?, text_written_shortest]
      rfl
  | text s => rfl
  | timestamp t => rw [lexeme, Lexeme.literal?, literal, spelling_timestamp, String.toList_ofList]

end Keyset
