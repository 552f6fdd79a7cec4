import Keyset.Toml.Quoted
import Keyset.Toml.Scalar

/-!
# Reading TOML

`Toml.read?` reads a whole document: lines that set a key, lines with the header of a table, and
comments. Nothing is read from a document that breaks a rule anywhere, that has a key of more than
`Toml.maxSteps` steps, or that nests a value deeper than `Toml.maxLevels`.
-/

namespace Keyset.Toml

open Text

/-! ### Blanks and comments -/

/-- A space or a tab. -/
def isGap (c : Char) : Bool := c = ' ' || c = '\t'

/-- The text without its leading spaces and tabs. -/
def skipGap (s : List Char) : List Char := s.dropWhile isGap

/-- The text after a comment at its front, which goes to the end of the line; the text itself if
there is no comment. -/
def skipComment? : List Char → Option (List Char)
  | '#' :: s =>
    let rest := s.dropWhile isPlain
    match rest with
    | [] => some []
    | '\n' :: _ => some rest
    | '\r' :: '\n' :: _ => some rest
    | _ => none
  | s => some s

/-- The text after the blanks, line ends and comments at its front. The number bounds how many
lines there are. -/
def skipLines? : Nat → List Char → Option (List Char)
  | 0, _ => none
  | fuel + 1, s => do
    let s ← skipComment? (skipGap s)
    match s with
    | '\n' :: t => skipLines? fuel t
    | '\r' :: '\n' :: t => skipLines? fuel t
    | _ => some s

/-- The text after the end of a line, which may hold a comment but nothing else. -/
def endLine? (s : List Char) : Option (List Char) := do
  let s ← skipComment? (skipGap s)
  match s with
  | [] => some []
  | '\n' :: t => some t
  | '\r' :: '\n' :: t => some t
  | _ => none

/-! ### Keys -/

/-- The most steps of a key. -/
def maxSteps : Nat := 80

/-- The characters of keys without quotes. -/
def isKeyChar (c : Char) : Bool := c.isAlphanum || c = '_' || c = '-'

/-- A key without dots at the front, and the text after it. -/
def takeStep? (s : List Char) : Option (String × List Char) :=
  match s with
  | '\x22' :: _ | '\x27' :: _ => (takeLine? s).map fun (k, rest) => (String.ofList k, rest)
  | _ =>
    let k := s.takeWhile isKeyChar
    if k = [] then none else some (String.ofList k, s.dropWhile isKeyChar)

/-- A key at the front of at most the given number of steps, and the text after it and after the
blanks behind it. -/
def takeKey? : Nat → List Char → Option ((List String × String) × List Char)
  | 0, _ => none
  | steps + 1, s => do
    let (step, s) ← takeStep? (skipGap s)
    match skipGap s with
    | '.' :: t => (takeKey? steps t).map fun ((path, key), rest) => ((step :: path, key), rest)
    | t => some (([], step), t)

/-! ### Values -/

/-- The most brackets and braces that are open at once. -/
def maxLevels : Nat := 80

mutual

/-- A value at the front that opens at most `levels` brackets and braces at once, and the text after
it. The first number bounds how deep the recursion goes; no text needs more than twice as much as it
has characters. -/
def takeValue? : Nat → (levels : Nat) → List Char → Option (Node × List Char)
  | 0, _, _ => none
  | fuel + 1, levels, s =>
    match s with
    | '\x22' :: _ | '\x27' :: _ =>
      (takeString? s).map fun (cs, rest) => (.text (String.ofList cs), rest)
    | '[' :: t =>
      if levels = 0 then none
      else (takeItems? fuel (levels - 1) t).map fun (vs, rest) => (.array vs, rest)
    | '{' :: t =>
      if levels = 0 then none
      else (takeEntries? fuel (levels - 1) [] t).map fun (es, rest) => (.table .braces es, rest)
    | _ => takeScalar? s

/-- The items of a list up to its closing bracket, and the text after it. A comma may follow the
last item. -/
def takeItems? : Nat → (levels : Nat) → List Char → Option (List Node × List Char)
  | 0, _, _ => none
  | fuel + 1, levels, s => do
    match ← skipLines? (s.length + 1) s with
    | ']' :: t => some ([], t)
    | t =>
      let (v, t) ← takeValue? fuel levels t
      match ← skipLines? (t.length + 1) t with
      | ',' :: t => (takeItems? fuel levels t).map fun (vs, rest) => (v :: vs, rest)
      | ']' :: t => some ([v], t)
      | _ => none

/-- The entries of a table in braces up to its closing brace, after those that were read before, and
the text after it. Lines may end around the equals sign, and a comma may follow the last entry. -/
def takeEntries? : Nat → (levels : Nat) → Entries → List Char → Option (Entries × List Char)
  | 0, _, _, _ => none
  | fuel + 1, levels, es, s => do
    match ← skipLines? (s.length + 1) s with
    | '}' :: t => some (es, t)
    | t =>
      let ((path, key), t) ← takeKey? maxSteps t
      let t ← after? '=' (← skipLines? (t.length + 1) t)
      let (v, t) ← takeValue? fuel levels (← skipLines? (t.length + 1) t)
      let es ← set path key v es
      match ← skipLines? (t.length + 1) t with
      | ',' :: t => takeEntries? fuel levels es t
      | '}' :: t => some (es, t)
      | _ => none

end

/-! ### Documents -/

/-- What was read of a document, and where its next keys go. -/
structure Draft where
  /-- The document. -/
  root : Entries
  /-- The table that is open. -/
  path : List String

/-- Reads a line with a header, after its opening brackets. -/
def takeHeader? (d : Draft) (isItem : Bool) (s : List Char) : Option (Draft × List Char) := do
  let ((path, key), s) ← takeKey? maxSteps s
  let s ← afterWord? (if isItem then "]]".toList else "]".toList) s
  let root ← atPath path (if isItem then openItem key else openTable key) d.root
  return (⟨root, path ++ [key]⟩, ← endLine? s)

/-- Reads a line that sets a key. -/
def takeEntry? (d : Draft) (s : List Char) : Option (Draft × List Char) := do
  let ((path, key), s) ← takeKey? maxSteps s
  let s := skipGap (← after? '=' s)
  let (v, s) ← takeValue? (2 * s.length + 2) maxLevels s
  let root ← atPath d.path (set path key v) d.root
  return ({ d with root }, ← endLine? s)

/-- Reads lines until the document ends. The number bounds how many lines there are. -/
def readLines? : Nat → Draft → List Char → Option Draft
  | 0, _, _ => none
  | fuel + 1, d, s => do
    match ← skipLines? (s.length + 1) s with
    | [] => some d
    | '[' :: '[' :: t => let (d, t) ← takeHeader? d true t; readLines? fuel d t
    | '[' :: t => let (d, t) ← takeHeader? d false t; readLines? fuel d t
    | t => let (d, t) ← takeEntry? d t; readLines? fuel d t

/-- Reads a document, which may begin with a byte order mark. -/
def read? (s : List Char) : Option Entries :=
  let s := if s.head? = some '\ufeff' then s.drop 1 else s
  (readLines? (s.length + 1) ⟨[], []⟩ s).map (·.root)

end Keyset.Toml
