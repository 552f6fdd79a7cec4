import Keyset.Sql.Piece

/-!
# Fragments

A fragment is a row of pieces, a part of a statement or a whole one. Fragments are put together as
lists and written with the spaces that the spacing rules ask for.

* `Fragment.pieces_append` : the pieces of two fragments, of which either may be empty.
* `Fragment.append_assoc`, `Fragment.append_empty` : fragments are put together as lists are.
-/

namespace Keyset

/-- A row of pieces. -/
@[ext]
structure Fragment where
  /-- The pieces in the order they are written. -/
  pieces : List Piece
deriving DecidableEq

namespace Fragment

/-! ### Putting fragments together -/

/-- The fragment without pieces. -/
def empty : Fragment := ⟨[]⟩

/-- The fragment of one piece. -/
def single (c : Piece) : Fragment := ⟨[c]⟩

/-- The fragment of one token. -/
def token (t : Token) : Fragment := single (.token t)

/-- The fragment of several tokens. -/
def tokens (ts : List Token) : Fragment := ⟨ts.map .token⟩

/-- The fragment of one quoted name. -/
def ident (name : String) : Fragment := single (.ident name)

/-- The fragment of one literal. -/
def literal (v : Value) : Fragment := single (.literal v)

/-- The fragment has no pieces. -/
def isEmpty (a : Fragment) : Bool := a.pieces.isEmpty

/-- One fragment after another. Where one of them is empty the other is taken as it is. -/
def append (a b : Fragment) : Fragment :=
  if a.isEmpty then b else if b.isEmpty then a else ⟨a.pieces ++ b.pieces⟩

instance : Append Fragment := ⟨append⟩

/-- The fragment with the pieces of another one put after its own, in place. -/
def extend (a b : Fragment) : Fragment :=
  if a.isEmpty then { a with pieces := b.pieces }
  else if b.isEmpty then a
  else { a with pieces := a.pieces ++ b.pieces }

/-- The fragment with a piece after it. -/
def push (a : Fragment) (c : Piece) : Fragment := ⟨a.pieces ++ [c]⟩

/-- The fragments in a row with a token between each two of them, empty fragments included. -/
def join (separator : Token) : List Fragment → Fragment
  | [] => empty
  | [a] => a
  | a :: b :: rest => a.push (.token separator) ++ join separator (b :: rest)

/-- The fragment between parentheses. -/
def parens (a : Fragment) : Fragment := token .lparen ++ a ++ token .rparen

/-- The conjunction of the fragments that are not empty. -/
def conjunction (conditions : List Fragment) : Fragment :=
  join .AND (conditions.filter fun a => !a.isEmpty)

theorem pieces_append (a b : Fragment) : (a ++ b).pieces = a.pieces ++ b.pieces := by
  show (append a b).pieces = _
  unfold append
  split
  case isTrue ha => rw [List.isEmpty_iff.1 ha, List.nil_append]
  case isFalse =>
    split
    case isTrue hb => rw [List.isEmpty_iff.1 hb, List.append_nil]
    case isFalse => rfl

theorem extend_eq_append (a b : Fragment) : a.extend b = a ++ b := rfl

theorem append_assoc (a b c : Fragment) : a ++ b ++ c = a ++ (b ++ c) := by
  ext1
  simp only [pieces_append, List.append_assoc]

theorem empty_append (a : Fragment) : empty ++ a = a := rfl

theorem append_empty (a : Fragment) : a ++ empty = a := by
  ext1
  rw [pieces_append]
  exact List.append_nil _

theorem push_eq_append (a : Fragment) (c : Piece) : a.push c = a ++ single c := by
  ext1
  rw [pieces_append]
  rfl

/-! ### Conditions on one fragment -/

/-- The condition that a fragment compares to a value in the way of an operator. -/
def compare (left : Fragment) (operator : Token) (right : Value) : Fragment :=
  left.push (.token operator) ++ literal right

/-- The condition that the fragment is absent. -/
def isNull (left : Fragment) : Fragment := left ++ tokens [.IS, .NULL]

/-- The condition that the fragment is not absent. -/
def isNotNull (left : Fragment) : Fragment := left ++ tokens [.IS, .NOT, .NULL]

/-! ### Writing -/

/-- The characters of a row of pieces. -/
def spell (d : Dialect) : List Piece → List Char
  | [] => []
  | [c] => c.spelling d
  | c :: next :: rest =>
    c.spelling d ++ (if c.spaced next then [' '] else []) ++ spell d (next :: rest)

/-- The text of a fragment. -/
def render (d : Dialect) (a : Fragment) : String := String.ofList (spell d a.pieces)

end Fragment

end Keyset
