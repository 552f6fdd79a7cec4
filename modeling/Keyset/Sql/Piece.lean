import Keyset.Sql.Dialect
import Keyset.Sql.Token
import Keyset.Value

/-!
# Pieces

A statement is a row of pieces. A piece has a text in each dialect, and a role from which the
spaces between pieces follow: `Piece.spaced` is the whole of the spacing rules.
-/

namespace Keyset

open Decimal

/-- The smallest piece of a statement. -/
inductive Piece
  /-- A keyword, an operator or a punctuation mark. -/
  | token (t : Token)
  /-- A quoted name. -/
  | ident (name : String)
  /-- A quoted column name after the quoted name of its table. -/
  | qualified (table : String) (column : String)
  /-- Trusted text that is written as it is. -/
  | raw (text : String)
  /-- The literal of a value. -/
  | literal (v : Value)
  /-- A count of rows. -/
  | count (n : UInt64)
  /-- The server's time. -/
  | now
deriving DecidableEq

/-- What a piece is to its neighbours. -/
inductive Role
  /-- A word, set off by spaces from other words. -/
  | word
  /-- A comparison operator. -/
  | operator
  /-- A comma. -/
  | comma
  /-- An opening parenthesis. -/
  | opening
  /-- A closing parenthesis. -/
  | closing
deriving DecidableEq

namespace Role

/-- A space stands between a piece of the first role and a piece of the second one. -/
def spaced : Role → Role → Bool
  | _, comma | _, closing => false
  | opening, _ => false
  | comma, _ => true
  | closing, next => next = word
  | cur, opening => cur = word
  | _, _ => true

end Role

namespace Piece

/-- The largest count that a store takes, since stores count with signed integers. -/
def maxCount : Nat := (1 <<< 63) - 1

/-- The text of a piece. -/
def spelling (d : Dialect) : Piece → List Char
  | token t => t.text.toList
  | ident name => d.name name
  | qualified table column => d.name table ++ '.' :: d.name column
  | raw text => text.toList
  | literal v => v.spelling
  | count n => natText (min n.toNat maxCount)
  | now => d.clockCall.toList

/-- The role of a piece. -/
def role : Piece → Role
  | token .comma => .comma
  | token .lparen => .opening
  | token .rparen => .closing
  | token t => if t.isOperator then .operator else .word
  | _ => .word

/-- Raw text that begins with a space of its own. -/
def opensWithSpace : Piece → Bool
  | raw text => text.toList.head? = some ' '
  | _ => false

/-- Raw text that ends with a space of its own. -/
def endsWithSpace : Piece → Bool
  | raw text => text.toList.getLast? = some ' '
  | _ => false

/-- A space is written between the two pieces. -/
def spaced (cur next : Piece) : Bool :=
  !cur.endsWithSpace && !next.opensWithSpace && cur.role.spaced next.role

end Piece

end Keyset
