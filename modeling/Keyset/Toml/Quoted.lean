import Keyset.Text.Hex
import Keyset.Text.Split

/-!
# TOML strings

A string stands between double quotes, where a backslash begins an escape, or between single quotes,
where every character stands for itself. Between one quote on each side it is a line, between three
it may be several lines, of which an empty first one is left out.
-/

namespace Keyset.Toml

open Text

/-- The character may stand for itself on a line: it is a tab or no control character. -/
def isPlain (c : Char) : Bool := c = '\t' || (0x20 ≤ c.toNat && c.toNat ≠ 0x7F)

/-- The character that stands after a backslash for a character of its own. -/
def escaped? (c : Char) : Option Char :=
  if c = '\x22' ∨ c = '\\' then some c
  else if c = 'b' then some '\x08'
  else if c = 't' then some '\t'
  else if c = 'n' then some '\n'
  else if c = 'f' then some '\x0c'
  else if c = 'r' then some '\r'
  else if c = 'e' then some '\x1b'
  else none

/-- The character whose code point hexadecimal digits spell. -/
def charOf? (ds : List Char) : Option Char := do
  let n ← hexOf? ds
  if n.isValidChar then some (Char.ofNat n) else none

/-- Puts a character, if there is one, before what was read after it. -/
def before (c : Option Char) (read : Option (List Char × List Char)) :
    Option (List Char × List Char) := do
  let c ← c
  let (s, rest) ← read
  return (c :: s, rest)

/-! ### One line -/

/-- The characters of a line with escapes up to its closing quote, and the text after it. -/
def takeBasic? : List Char → Option (List Char × List Char)
  | [] => none
  | '\x22' :: s => some ([], s)
  | '\\' :: 'x' :: a :: b :: s => before (charOf? [a, b]) (takeBasic? s)
  | '\\' :: 'u' :: a :: b :: c :: d :: s => before (charOf? [a, b, c, d]) (takeBasic? s)
  | '\\' :: 'U' :: a :: b :: c :: d :: e :: f :: g :: h :: s =>
    before (charOf? [a, b, c, d, e, f, g, h]) (takeBasic? s)
  | '\\' :: c :: s => before (escaped? c) (takeBasic? s)
  | c :: s => if isPlain c ∧ c ≠ '\\' then before (some c) (takeBasic? s) else none

/-- The characters of a line without escapes up to its closing quote, and the text after it. -/
def takeLiteral? : List Char → Option (List Char × List Char)
  | [] => none
  | '\x27' :: s => some ([], s)
  | c :: s => if isPlain c then before (some c) (takeLiteral? s) else none

/-! ### Several lines -/

/-- The text after a line end at its front, or the text itself. -/
def skipLineEnd : List Char → List Char
  | '\n' :: s => s
  | '\r' :: '\n' :: s => s
  | s => s

/-- What follows three quotes inside a string of several lines: up to two more quotes belong to the
string, which ends there. -/
def closing (q : Char) : List Char → Option (List Char × List Char)
  | a :: b :: c :: s =>
    if a = q ∧ b = q ∧ c = q then none
    else if a = q ∧ b = q then some ([q, q], c :: s)
    else if a = q then some ([q], b :: c :: s)
    else some ([], a :: b :: c :: s)
  | [a, b] =>
    if a = q ∧ b = q then some ([q, q], []) else if a = q then some ([q], [b])
    else some ([], [a, b])
  | [a] => if a = q then some ([q], []) else some ([], [a])
  | [] => some ([], [])

/-- Only blanks stand before the next line end. -/
def endsLine : List Char → Bool
  | [] => false
  | '\n' :: _ => true
  | '\r' :: '\n' :: _ => true
  | c :: s => (c = ' ' || c = '\t') && endsLine s

/-- The characters of several lines with escapes up to their closing quotes, and the text after
them. A backslash at the end of a line hides the line end and all blanks and line ends after it;
the flag tells that such a gap is being left out. -/
def takeBasicLines? : Bool → List Char → Option (List Char × List Char)
  | _, [] => none
  | true, ' ' :: s => takeBasicLines? true s
  | true, '\t' :: s => takeBasicLines? true s
  | true, '\n' :: s => takeBasicLines? true s
  | true, '\r' :: '\n' :: s => takeBasicLines? true s
  | _, '\x22' :: '\x22' :: '\x22' :: s => closing '\x22' s
  | _, '\\' :: 'x' :: a :: b :: s => before (charOf? [a, b]) (takeBasicLines? false s)
  | _, '\\' :: 'u' :: a :: b :: c :: d :: s =>
    before (charOf? [a, b, c, d]) (takeBasicLines? false s)
  | _, '\\' :: 'U' :: a :: b :: c :: d :: e :: f :: g :: h :: s =>
    before (charOf? [a, b, c, d, e, f, g, h]) (takeBasicLines? false s)
  | _, '\\' :: c :: s =>
    if endsLine (c :: s) then takeBasicLines? true (c :: s)
    else before (escaped? c) (takeBasicLines? false s)
  | _, '\n' :: s => before (some '\n') (takeBasicLines? false s)
  | _, '\r' :: '\n' :: s => before (some '\r') (before (some '\n') (takeBasicLines? false s))
  | _, c :: s =>
    if isPlain c ∧ c ≠ '\\' then before (some c) (takeBasicLines? false s) else none

/-- The characters of several lines without escapes up to their closing quotes, and the text after
them. -/
def takeLiteralLines? : List Char → Option (List Char × List Char)
  | [] => none
  | '\x27' :: '\x27' :: '\x27' :: s => closing '\x27' s
  | '\n' :: s => before (some '\n') (takeLiteralLines? s)
  | '\r' :: '\n' :: s => before (some '\r') (before (some '\n') (takeLiteralLines? s))
  | c :: s => if isPlain c then before (some c) (takeLiteralLines? s) else none

/-! ### Strings -/

/-- A string of one line at the front, and the text after it. -/
def takeLine? : List Char → Option (List Char × List Char)
  | '\x22' :: s => takeBasic? s
  | '\x27' :: s => takeLiteral? s
  | _ => none

/-- A string at the front, and the text after it. -/
def takeString? : List Char → Option (List Char × List Char)
  | '\x22' :: '\x22' :: '\x22' :: s => takeBasicLines? false (skipLineEnd s)
  | '\x27' :: '\x27' :: '\x27' :: s => takeLiteralLines? (skipLineEnd s)
  | s => takeLine? s

end Keyset.Toml
