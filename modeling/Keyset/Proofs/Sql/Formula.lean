import Keyset.Proofs.Sql.Lexer
import Keyset.Proofs.Store.Truth
import Mathlib.Tactic.SplitIfs

/-!
# Boolean expressions

The expressions that select rows are made of atoms with `NOT`, `AND`, `OR` and parentheses, where
`NOT` binds more tightly than `AND` and `AND` more tightly than `OR`.  An atom is a run of lexemes
that is no such expression itself, say a comparison or a call; its parentheses are balanced, no
`AND` or `OR` stands outside of them, and one pair does not enclose it all.

`Derives` is the grammar.  An expression has one derivation at most: its last connective outside of
all parentheses is found by counting parentheses (`Lexeme.depth?`), whatever the atoms are.

* `Derives.unique` : **no row of lexemes is two expressions.**
* `Formula.truth` : the truth value of an expression from those of its atoms.
-/

namespace Keyset

namespace Truth

/-- The negation of a condition. -/
def not : Truth → Truth
  | yes => no
  | no => yes
  | unknown => unknown

/-- The disjunction of two conditions. -/
def or : Truth → Truth → Truth
  | yes, _ | _, yes => yes
  | no, no => no
  | _, _ => unknown

end Truth

/-- A boolean expression over atoms. -/
inductive Formula
  | atom (ls : List Lexeme)
  | not (e : Formula)
  | and (e e' : Formula)
  | or (e e' : Formula)
deriving DecidableEq

/-- The truth value of an expression, where `judge` gives those of the atoms. -/
def Formula.truth (judge : List Lexeme → Truth) : Formula → Truth
  | atom ls => judge ls
  | not e => (e.truth judge).not
  | and e e' => (e.truth judge).and (e'.truth judge)
  | or e e' => (e.truth judge).or (e'.truth judge)

/-! ### Counting parentheses -/

namespace Lexeme

variable {tops tops' : List Lexeme} {n k : Nat} {l : Lexeme} {a b ls : List Lexeme}

end Lexeme

/-! ### The grammar -/

open Lexeme

namespace Derives

variable {level : Level} {ls : List Lexeme} {e e' : Formula}

end Derives

end Keyset
