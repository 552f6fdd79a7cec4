import Keyset.Proofs.Sql.Lexer
import Keyset.Sql.Fragment

/-!
# Statements are read back

Every piece of a statement but raw text stands for certain lexemes, `Piece.lexemes`.  The text of a
fragment holds these lexemes and no others: the pieces are spaced so that no two of them fuse
(`Fragment.stops_gap`), and no name or text ends its own quoting.

* `Lexeme.take?_value` : the literal of a value is one lexeme.
* `Piece.lex_spelling` : the text of a piece, with what may follow it, is read as its lexemes.
* `Fragment.lex_render` : **the text of a fragment is read as the lexemes of its pieces**, in every
  dialect the same ones except for the call of the server's time.
-/

namespace Keyset

open Decimal Text Lexeme

/-! ### Lexemes of pieces -/

/-- The numeral with the digits that are written: no place before the point is left out. -/
def Decimal.Numeral.written (x : Numeral) : Numeral :=
  if 0 ≤ x.exponent then ⟨x.coefficient * Nat.pow 10 x.exponent.toNat, 0⟩ else x

/-- The lexeme that a token stands for. -/
def Token.lexeme (t : Token) : Lexeme :=
  if t.isOperator || t.isPunctuation || t = .star then .sign t.text else .word t.text

/-- The lexeme that the literal of a value stands for. -/
def Value.lexeme : Value → Lexeme
  | null => .word "NULL"
  | bool true => .word "TRUE"
  | bool false => .word "FALSE"
  | integer n => .number (n.toInt < 0) ⟨n.toInt.natAbs, 0⟩
  | real (.finite negative rank) => .number negative (shortest binary64 rank).written
  | real _ => .word "NULL"
  | text s => .string s
  | timestamp t => .string (String.ofList t.text)

/-- The lexemes of the call that gives the server's time. -/
def Dialect.clock : Dialect → List Lexeme
  | sqlite | postgreSQL => [.word "CURRENT_TIMESTAMP"]
  | mysql => [.word "CURRENT_TIMESTAMP", .sign "(", .sign ")"]

namespace Piece

/-- The piece is raw text. -/
def isRaw : Piece → Bool
  | raw _ => true
  | _ => false

/-- The lexemes that a piece stands for, where `clock` gives the server's time.  Of raw text nothing
is known. -/
def lexemes (clock : List Lexeme) : Piece → List Lexeme
  | token t => [t.lexeme]
  | ident s => [.name s]
  | qualified table column => [.name table, .sign ".", .name column]
  | raw _ => []
  | literal v => [v.lexeme]
  | count n => [.number false ⟨min n.toNat maxCount, 0⟩]
  | now => clock

end Piece

namespace Lexeme

variable {d : Dialect} {rest : List Char}

/-! ### Numbers -/

theorem head?_digits {s t : List Char} (hs : ∀ c ∈ s, c.isDigit = true) (hne : s ≠ []) :
    (s ++ t).head?.any Char.isDigit = true := by
  cases s with
  | nil => exact absurd rfl hne
  | cons c s => exact hs c List.mem_cons_self

theorem isDigit_of_mem_natText {n : Nat} : ∀ c ∈ natText n, c.isDigit = true :=
  List.all_eq_true.1 (natText_all_isDigit n)

theorem ofDigitChars_natText (n : Nat) : Nat.ofDigitChars 10 (natText n) 0 = n :=
  Nat.ofDigitChars_ten_toDigits

theorem isDigit_of_mem_replicate {n : Nat} : ∀ c ∈ List.replicate n '0', c.isDigit = true := by
  intro c hc
  rw [List.eq_of_mem_replicate hc]
  rfl

theorem isDigit_of_mem_padded {width n : Nat} : ∀ c ∈ padded width n, c.isDigit = true :=
  fun c hc => (List.mem_append.1 hc).elim (isDigit_of_mem_replicate c) (isDigit_of_mem_natText c)

theorem ofDigitChars_padded (width n : Nat) : Nat.ofDigitChars 10 (padded width n) 0 = n := by
  rw [padded, Nat.ofDigitChars_append, Nat.ofDigitChars_replicate_zero, Nat.mul_zero,
    ofDigitChars_natText]

theorem le_length_padded (width n : Nat) : width ≤ (padded width n).length := by
  rw [padded, List.length_append, List.length_replicate]
  omega

theorem takeNumber_natText (negative : Bool) (h : Stops rest) (n : Nat) :
    takeNumber negative (natText n ++ rest) = (number negative ⟨n, 0⟩, rest) := by
  rw [takeNumber_digits negative isDigit_of_mem_natText h, ofDigitChars_natText]

theorem exists_text_eq_digits {x : Numeral} (hx : 0 ≤ x.exponent) :
    ∃ ds : List Char, ds ≠ [] ∧ (∀ c ∈ ds, c.isDigit = true) ∧ x.text = ds ∧
      x.written = ⟨Nat.ofDigitChars 10 ds 0, 0⟩ := by
  refine ⟨natText x.coefficient ++ List.replicate x.exponent.toNat '0', ?_, ?_, ?_, ?_⟩
  · simp [natText_ne_nil]
  · exact fun c hc =>
      (List.mem_append.1 hc).elim (isDigit_of_mem_natText c) (isDigit_of_mem_replicate c)
  · rw [Numeral.text, if_pos hx]
  · rw [Numeral.written, if_pos hx, Nat.ofDigitChars_append, ofDigitChars_natText,
      Nat.ofDigitChars_replicate_zero, Nat.mul_comm]
    rfl

theorem exists_text_eq_point {x : Numeral} (hx : ¬ 0 ≤ x.exponent) :
    ∃ whole places : List Char, whole ≠ [] ∧ places ≠ [] ∧ (∀ c ∈ whole, c.isDigit = true) ∧
      (∀ c ∈ places, c.isDigit = true) ∧ x.text = whole ++ '.' :: places ∧
      x.written = ⟨Nat.ofDigitChars 10 (whole ++ places) 0, -places.length⟩ := by
  -- the digits are split before the last places, of which there is at least one
  have hlen := le_length_padded (x.exponent.natAbs + 1) x.coefficient
  have hdigits : ∀ c ∈ padded (x.exponent.natAbs + 1) x.coefficient, c.isDigit = true :=
    fun c hc => isDigit_of_mem_padded c hc
  have hvalue := ofDigitChars_padded (x.exponent.natAbs + 1) x.coefficient
  have htext : x.text = (padded (x.exponent.natAbs + 1) x.coefficient).take
      ((padded (x.exponent.natAbs + 1) x.coefficient).length - x.exponent.natAbs) ++
        '.' :: (padded (x.exponent.natAbs + 1) x.coefficient).drop
          ((padded (x.exponent.natAbs + 1) x.coefficient).length - x.exponent.natAbs) := by
    rw [Numeral.text, if_neg hx]
  generalize padded (x.exponent.natAbs + 1) x.coefficient = ds at hlen hdigits hvalue htext
  have hplaces : (ds.drop (ds.length - x.exponent.natAbs)).length = x.exponent.natAbs := by
    rw [List.length_drop]
    omega
  have hwhole : (ds.take (ds.length - x.exponent.natAbs)).length ≠ 0 := by
    rw [List.length_take]
    omega
  refine ⟨_, _, fun hnil => hwhole (List.length_eq_zero_iff.2 hnil), ?_,
    fun c hc => hdigits c (List.mem_of_mem_take hc),
    fun c hc => hdigits c (List.mem_of_mem_drop hc), htext, ?_⟩
  · intro hnil
    rw [hnil, List.length_nil] at hplaces
    omega
  · have hexponent : -(x.exponent.natAbs : Int) = x.exponent := by omega
    rw [Numeral.written, if_neg hx, List.take_append_drop, hvalue, hplaces, hexponent]

/-- **A numeral is read with the digits that are written.** -/
theorem takeNumber_text (negative : Bool) (h : Stops rest) (x : Numeral) :
    takeNumber negative (x.text ++ rest) = (number negative x.written, rest) := by
  by_cases hx : 0 ≤ x.exponent
  · obtain ⟨ds, -, hd, htext, hwritten⟩ := exists_text_eq_digits hx
    rw [htext, hwritten, takeNumber_digits negative hd h]
  · obtain ⟨whole, places, -, hne, hw, hp, htext, hwritten⟩ := exists_text_eq_point hx
    rw [htext, hwritten, takeNumber_point negative hw hp hne h]

theorem head?_text (x : Numeral) (t : List Char) : (x.text ++ t).head?.any Char.isDigit = true := by
  by_cases hx : 0 ≤ x.exponent
  · obtain ⟨ds, hne, hd, htext, -⟩ := exists_text_eq_digits hx
    rw [htext]
    exact head?_digits hd hne
  · obtain ⟨whole, places, hne, -, hw, -, htext, -⟩ := exists_text_eq_point hx
    rw [htext, List.append_assoc]
    exact head?_digits hw hne

/-! ### Strings -/

theorem double_of_not_mem {q : Char} {s : List Char} (hs : q ∉ s) : double q s = s := by
  induction s with
  | nil => rfl
  | cons c s ih =>
    rw [List.mem_cons, not_or] at hs
    rw [double, if_neg (Ne.symm hs.1), ih hs.2]

theorem quoteMark_not_mem_timestamp (t : Timestamp) : Value.quoteMark ∉ t.text := by
  have hp (width n : Nat) : Value.quoteMark ∉ padded width n := by
    intro h
    have hd := isDigit_of_mem_padded _ h
    revert hd
    decide
  have hy (year : Int) : Value.quoteMark ∉ Timestamp.yearText year := by
    unfold Timestamp.yearText
    have hminus : Value.quoteMark ≠ '-' := by decide
    have hplus : Value.quoteMark ≠ '+' := by decide
    split
    · simp [hp, hminus]
    split
    · exact hp _ _
    · simp [hp, hplus]
  have hsigns : Value.quoteMark ∉ ['-', ' ', ':'] := by decide
  simp only [List.mem_cons, not_or] at hsigns
  simp [Timestamp.text, hy, hp, hsigns]

/-! ### Values -/

/-- **The literal of a value is one lexeme.** -/
theorem take?_value (h : Stops rest) (v : Value) :
    take? d (v.spelling ++ rest) = some (v.lexeme, rest) := by
  have hquote : rest.head? ≠ some Value.quoteMark := h.head?_ne (by decide)
  have hnull : take? d ("NULL".toList ++ rest) = some (word "NULL", rest) :=
    take?_word (by decide) h
  cases v with
  | null => exact hnull
  | bool b => cases b <;> exact take?_word (by decide) h
  | integer n =>
    have hs : Value.spelling (.integer n) =
        (if decide (n.toInt < 0) then ['-'] else []) ++ natText n.toInt.natAbs := by
      rw [Value.spelling, intText]
      by_cases hn : n.toInt < 0
      · simp [hn]
      · simp [hn]
    rw [hs, List.append_assoc,
      take?_number (head?_digits isDigit_of_mem_natText (natText_ne_nil _)),
      takeNumber_natText _ h]
    rfl
  | real x =>
    cases x with
    | nan => exact hnull
    | infinite negative => exact hnull
    | finite negative rank =>
      show take? d (((if negative then ['-'] else []) ++ (shortest binary64 rank).text) ++ rest) = _
      rw [List.append_assoc, take?_number (head?_text _ rest), takeNumber_text negative h]
      rfl
  | text s =>
    rw [Value.spelling, take?_string hquote, String.ofList_toList]
    rfl
  | timestamp t =>
    have hq : Value.spelling (.timestamp t) = quote Value.quoteMark t.text := by
      rw [quote, double_of_not_mem (quoteMark_not_mem_timestamp t)]
      rfl
    rw [hq, take?_string hquote]
    rfl

/-! ### Tokens -/

theorem take?_token {t : Token} (h : t.isPunctuation = false → Stops rest) :
    take? d (t.text.toList ++ rest) = some (t.lexeme, rest) := by
  cases t with
  | star | comma | lparen | rparen | eq | ne | le | ge => cases d <;> rfl
  | lt | gt =>
    -- what follows does not make a longer operator of it
    cases rest with
    | nil => cases d <;> rfl
    | cons c rest =>
      have hc := h rfl c rfl
      simp only [List.mem_cons, List.not_mem_nil, or_false] at hc
      rcases hc with rfl | rfl | rfl | rfl <;> cases d <;> rfl
  | _ => exact take?_word (by decide) (h rfl)

end Lexeme

/-! ### Pieces -/

/-- The role is that of a punctuation mark. -/
def Role.isMark : Role → Bool
  | comma | opening | closing => true
  | word | operator => false

theorem Role.spaced_of_isMark_eq_false {cur next : Role} (hc : cur.isMark = false)
    (hn : next.isMark = false) : cur.spaced next = true := by
  revert hc hn
  cases cur <;> cases next <;> decide

namespace Piece

variable {d : Dialect} {c next : Piece} {rest : List Char}

theorem isPunctuation_of_isMark {t : Token} (h : (token t).role.isMark = true) :
    t.isPunctuation = true := by
  revert h
  cases t <;> decide

theorem spelling_of_isMark (h : c.role.isMark = true) :
    ∃ m ∈ [' ', ',', '(', ')'], c.spelling d = [m] := by
  cases c with
  | token t => cases t <;> first | exact absurd h (by decide) | exact ⟨_, by decide, rfl⟩
  | _ => cases h

/-- **The text of a piece is read as its lexemes**, whatever follows it if it is a punctuation mark,
and otherwise if it stops there. -/
theorem lex_spelling (hraw : c.isRaw = false) (h : c.role.isMark = false → Stops rest) :
    lex d (c.spelling d ++ rest) = (lex d rest).map (c.lexemes d.clock ++ ·) := by
  cases c with
  | token t =>
    refine lex_of_take? (take?_token fun ht => h ?_)
    rw [← Bool.not_eq_true]
    intro hm
    rw [isPunctuation_of_isMark hm] at ht
    cases ht
  | ident s =>
    exact lex_of_take? (take?_name ((h rfl).head?_ne (by cases d <;> decide)) s)
  | qualified table column =>
    have hpoint : ('.' :: (d.name column ++ rest)).head? ≠ some d.nameMark := by
      intro hq
      have hmark : '.' ≠ d.nameMark := by cases d <;> decide
      exact hmark (Option.some.inj hq)
    have hsign : take? d ('.' :: (d.name column ++ rest)) =
        some (.sign ".", d.name column ++ rest) := by cases d <;> rfl
    have hcolumn : rest.head? ≠ some d.nameMark := (h rfl).head?_ne (by cases d <;> decide)
    show lex d ((d.name table ++ '.' :: d.name column) ++ rest) = _
    rw [List.append_assoc, List.cons_append, lex_of_take? (take?_name hpoint table),
      lex_of_take? hsign, lex_of_take? (take?_name hcolumn column), Option.map_map, Option.map_map]
    rfl
  | raw text => cases hraw
  | literal v => exact lex_of_take? (take?_value (h rfl) v)
  | count n =>
    refine lex_of_take? ?_
    show take? d (((if false then ['-'] else []) ++ natText (min n.toNat maxCount)) ++ rest) = _
    rw [List.append_assoc, take?_number (head?_digits isDigit_of_mem_natText (natText_ne_nil _)),
      takeNumber_natText false (h rfl)]
  | now =>
    have hword (s : List Char) (hs : Stops s) :
        take? d ("CURRENT_TIMESTAMP".toList ++ s) = some (.word "CURRENT_TIMESTAMP", s) :=
      take?_word (by decide) hs
    cases d with
    | sqlite | postgreSQL => exact lex_of_take? (hword rest (h rfl))
    | mysql =>
      have hparen : Stops ('(' :: ')' :: rest) := by
        intro c hc
        cases hc
        decide
      show lex .mysql ("CURRENT_TIMESTAMP".toList ++ '(' :: ')' :: rest) = _
      rw [lex_of_take? (hword _ hparen), lex_of_take? (d := .mysql) (l := .sign "(") rfl,
        lex_of_take? (d := .mysql) (l := .sign ")") rfl, Option.map_map, Option.map_map]
      rfl

end Piece

namespace Fragment

variable {d : Dialect}

theorem exists_spell_cons (c : Piece) (rest : List Piece) :
    ∃ tail, spell d (c :: rest) = c.spelling d ++ tail := by
  cases rest with
  | nil => exact ⟨[], (List.append_nil _).symm⟩
  | cons next rest => exact ⟨_, List.append_assoc _ _ _⟩

/-- **No two pieces fuse**: a piece that is no punctuation mark stops where the next one begins. -/
theorem stops_gap {c next : Piece} (hc : c.isRaw = false) (hn : next.isRaw = false)
    (hm : c.role.isMark = false) (rest : List Piece) :
    Stops ((if c.spaced next then [' '] else []) ++ spell d (next :: rest)) := by
  have hopens : next.opensWithSpace = false := by
    cases next with
    | raw text => cases hn
    | _ => rfl
  have hends : c.endsWithSpace = false := by
    cases c with
    | raw text => cases hc
    | _ => rfl
  have hspaced : c.spaced next = c.role.spaced next.role := by
    rw [Piece.spaced, hopens, hends]
    rfl
  rw [hspaced]
  cases hs : c.role.spaced next.role with
  | true =>
    intro x hx
    cases hx
    decide
  | false =>
    -- only before a punctuation mark there is no space
    have hmark : next.role.isMark = true := by
      rw [← Bool.not_eq_false]
      intro hn
      rw [Role.spaced_of_isMark_eq_false hm hn] at hs
      cases hs
    obtain ⟨m, hmem, hspelling⟩ := Piece.spelling_of_isMark (d := d) hmark
    obtain ⟨tail, htail⟩ := exists_spell_cons (d := d) next rest
    rw [htail, hspelling]
    intro x hx
    cases hx
    exact hmem

/-- A reader of texts that passes over spaces, and takes the lexemes of each of the pieces off the
front, takes the text of all the pieces apart. -/
theorem read_spell {read : List Char → Option (List Lexeme)} (nil : read [] = some [])
    (space : ∀ s, read (' ' :: s) = read s) {pieces : List Piece}
    (noRaw : ∀ c ∈ pieces, c.isRaw = false)
    (piece : ∀ c ∈ pieces, ∀ rest, (c.role.isMark = false → Stops rest) →
      read (c.spelling d ++ rest) = (read rest).map (c.lexemes d.clock ++ ·)) :
    read (spell d pieces) = some (pieces.flatMap (Piece.lexemes d.clock)) := by
  induction pieces with
  | nil => exact nil
  | cons c rest ih =>
    obtain ⟨hc, hrest⟩ := List.forall_mem_cons.1 noRaw
    obtain ⟨hread, hreads⟩ := List.forall_mem_cons.1 piece
    cases rest with
    | nil =>
      have hstops : Stops [] := by
        intro x hx
        cases hx
      have hpiece := hread [] fun _ => hstops
      rw [List.append_nil, nil] at hpiece
      exact hpiece
    | cons next rest =>
      have hn := hrest next List.mem_cons_self
      have hgap : read ((if c.spaced next then [' '] else []) ++ spell d (next :: rest)) =
          read (spell d (next :: rest)) := by
        cases c.spaced next with
        | true => exact space _
        | false => rfl
      rw [spell, List.append_assoc, hread _ fun hm => stops_gap hc hn hm rest, hgap,
        ih hrest hreads]
      rfl

theorem lex_spell {pieces : List Piece} (noRaw : ∀ c ∈ pieces, c.isRaw = false) :
    lex d (spell d pieces) = some (pieces.flatMap (Piece.lexemes d.clock)) :=
  read_spell lex_nil lex_space noRaw fun c hc _ h => Piece.lex_spelling (noRaw c hc) h

/-- **The text of a fragment is read as the lexemes of its pieces**, one after another.  Apart from
the call of the server's time they are the same in every dialect. -/
theorem lex_render (d : Dialect) (a : Fragment) (noRaw : ∀ c ∈ a.pieces, c.isRaw = false) :
    lex d (a.render d).toList = some (a.pieces.flatMap (Piece.lexemes d.clock)) ∧
      (.now ∉ a.pieces → ∀ d', lex d' (a.render d').toList = lex d (a.render d).toList) := by
  have hlex (d : Dialect) :
      lex d (a.render d).toList = some (a.pieces.flatMap (Piece.lexemes d.clock)) := by
    rw [render, String.toList_ofList, lex_spell noRaw]
  refine ⟨hlex d, ?_⟩
  intro hnow d'
  have hsame : ∀ c ∈ a.pieces, c.lexemes d'.clock = c.lexemes d.clock := by
    intro c hc
    cases c with
    | now => exact absurd hc hnow
    | _ => rfl
  rw [hlex d', hlex d, List.flatMap_def, List.flatMap_def, List.map_congr_left hsame]

/-- Marks inside names and texts, a sign after an operator, and a count that is too large. -/
theorem lex_render_marks :
    lex .mysql (render .mysql ⟨[.token .SELECT, .ident "a\x60,", .token .FROM,
        .qualified "\x60" "b", .token .WHERE, .ident "", .token .lt, .literal (.integer (-5)),
        .token .AND, .now, .token .ge, .literal (.text "\x27 OR \x27"), .token .LIMIT,
        .count (-1)]⟩).toList =
      some [.word "SELECT", .name "a\x60,", .word "FROM", .name "\x60", .sign ".", .name "b",
        .word "WHERE", .name "", .sign "<", .number true ⟨5, 0⟩, .word "AND",
        .word "CURRENT_TIMESTAMP", .sign "(", .sign ")", .sign ">=", .string "\x27 OR \x27",
        .word "LIMIT", .number false ⟨9223372036854775807, 0⟩] :=
  (lex_render .mysql _ (by decide)).1

end Fragment

end Keyset
