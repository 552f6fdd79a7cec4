import Keyset.Json.Request
import Keyset.Proofs.Sql.Look
import Keyset.Proofs.Value.Literal
import Keyset.Table

/-!
# Cursors that travel as text

A cursor is handed out as the literal of its key and read again from it.  The text that is read
makes a cursor with the same text, save for two kinds of keys: the negative zero, which is read as
an integer, and a text that spells a timestamp in another way than timestamps are written.  From the
cursor that was read on, nothing changes any more.

Statements show no more of a cursor than its text, so a cursor with the same text asks for the same
statements.

* `Value.spelling_wholeSecond_readBack_iff` : which keys keep their literal.
* `Plan.SameTexts` : two plans that ask for the same texts whatever the replies are.
* `Table.page_sameTexts` : **pages that resume at cursors with one text ask for the same texts.**
* `Cursor.read_text` : all of this about the cursor at a key.
-/

namespace Keyset

open Decimal Fragment Text

theorem Text.quote_injective {q : Char} {a b : List Char} (h : quote q a = quote q b) : a = b := by
  have hbody := congrArg (fun s => (between? q s).map (undouble q)) h
  simpa [between?_quote, undouble_double] using hbody

/-! ### Keys that keep their literal -/

namespace Value

/-- The literal of the value is read as a value with the same literal: the value is not the negative
zero, and no text that spells a timestamp in another way than it is written. -/
def KeepsLiteral : Value → Prop
  | real (.finite true rank) => rank.val ≠ 0
  | text s => ∀ t ∈ Timestamp.read? s.toList, t.wholeSecond.text = s.toList
  | _ => True

/-- **Which keys keep their literal** when it is read and cut to its second. -/
theorem spelling_wholeSecond_readBack_iff (v : Value) :
    v.wholeSecond.readBack.wholeSecond.spelling = v.wholeSecond.spelling ↔ v.KeepsLiteral := by
  cases v with
  | null => simp [KeepsLiteral, wholeSecond, readBack]
  | bool b => simp [KeepsLiteral, wholeSecond, readBack]
  | integer n => simp [KeepsLiteral, wholeSecond, readBack]
  | timestamp t =>
    simp only [wholeSecond, readBack_timestamp_wholeSecond, Timestamp.wholeSecond_wholeSecond,
      KeepsLiteral]
  | text s =>
    cases h : Timestamp.read? s.toList with
    | none => simp [KeepsLiteral, wholeSecond, readBack_text_of_not_read? h, h]
    | some t =>
      have hspelling : spelling (text s) = quote quoteMark s.toList := rfl
      have hcut : wholeSecond (text s) = text s := rfl
      have hread : wholeSecond (timestamp t) = timestamp t.wholeSecond := rfl
      have hkeeps : KeepsLiteral (text s) ↔ t.wholeSecond.text = s.toList := by
        simp [KeepsLiteral, h]
      rw [hcut, readBack_text_of_read? h, hread, spelling_timestamp, hspelling, hkeeps]
      exact ⟨fun hq => quote_injective hq, fun ht => by rw [ht]⟩
  | real x =>
    cases x with
    | nan => simp [KeepsLiteral, wholeSecond, readBack, spelling, Double.isFinite]
    | infinite negative => simp [KeepsLiteral, wholeSecond, readBack, spelling, Double.isFinite]
    | finite negative rank =>
      have hkeeps : KeepsLiteral (real (.finite negative rank)) ↔
          ¬ (negative = true ∧ rank.val = 0) := by
        cases negative <;> simp [KeepsLiteral]
      have hcut : wholeSecond (real (.finite negative rank)) = real (.finite negative rank) := rfl
      have hspelling : spelling (real (.finite negative rank)) =
          Double.text (.finite negative rank) := rfl
      rw [hcut, hkeeps]
      rcases readBack_real (x := .finite negative rank) rfl with ⟨hnone, h⟩ | ⟨n, h, hn⟩
      · -- a zero of either sign has the numeral of an integer
        rw [h, hcut]
        refine iff_of_true rfl ?_
        rintro ⟨rfl, hrank⟩
        obtain rfl : rank = ⟨0, by decide⟩ := Fin.ext hrank
        have hzero : ofInteger? (Double.text (.finite true ⟨0, by decide⟩)) = some (integer 0) :=
          rfl
        rw [hzero] at hnone
        cases hnone
      · rw [h, ← Double.intText_eq_text_iff hn, hspelling]
        rfl

/-- What was read and cut once is read as it is. -/
theorem readBack_wholeSecond_readBack (v : Value) :
    v.readBack.wholeSecond.readBack.wholeSecond = v.readBack.wholeSecond := by
  cases v with
  | null => rfl
  | bool b => rfl
  | integer n => rfl
  | timestamp t =>
    have hcut : (timestamp t).readBack.wholeSecond = timestamp t.shown.wholeSecond := rfl
    rw [hcut, readBack_timestamp_wholeSecond]
    rfl
  | text s =>
    cases h : Timestamp.read? s.toList with
    | none =>
      have hcut : wholeSecond (text s) = text s := rfl
      rw [readBack_text_of_not_read? h, hcut, readBack_text_of_not_read? h, hcut]
    | some t =>
      have hcut : wholeSecond (timestamp t) = timestamp t.wholeSecond := rfl
      rw [readBack_text_of_read? h, hcut, readBack_timestamp_wholeSecond]
      rfl
  | real x =>
    by_cases hx : x.isFinite = true
    · rcases readBack_real hx with ⟨-, h⟩ | ⟨n, h, -⟩
      · have hcut : wholeSecond (real x) = real x := rfl
        rw [h, hcut, h, hcut]
      · rw [h]
        rfl
    · rw [readBack, if_neg hx]
      rfl

end Value

/-! ### Queries that are written alike -/

variable {d : Dialect}

/-- The two filters have the same raw text, and conditions that are written alike. -/
structure Predicate.WrittenAlike (d : Dialect) (p p' : Predicate) : Prop where
  raw : p.raw = p'.raw
  fields : p.fields.map (fun f => (f.2.fragment f.1).looks d) =
    p'.fields.map fun f => (f.2.fragment f.1).looks d

theorem Predicate.WrittenAlike.refl (p : Predicate) : p.WrittenAlike d p := ⟨rfl, rfl⟩

/-- A comparison other than the tests for absence shows no more of its operand than its literal. -/
theorem Comparison.looks_fragment {op : Operator} {v w : Value} (hop : op ≠ .eq ∧ op ≠ .ne)
    (h : v.spelling = w.spelling) (left : Fragment) :
    (fragment ⟨op, v⟩ left).looks d = (fragment ⟨op, w⟩ left).looks d := by
  have hcompare (v : Value) : fragment ⟨op, v⟩ left = left.compare op.token v := by
    cases op with
    | eq => exact absurd rfl hop.1
    | ne => exact absurd rfl hop.2
    | lt | gt | le | ge => rfl
  have hlook : (literal v).looks d = (literal w).looks d :=
    congrArg (fun look => [look]) (Piece.look_literal h)
  rw [hcompare, hcompare, Fragment.compare, Fragment.compare, looks_append, looks_append, hlook]

theorem Predicate.WrittenAlike.push {p p' : Predicate} (h : p.WrittenAlike d p') (field : String)
    {op : Operator} (hop : op ≠ .eq ∧ op ≠ .ne) {v w : Value} (hv : v.spelling = w.spelling) :
    (p.push field ⟨op, v⟩).WrittenAlike d (p'.push field ⟨op, w⟩) := by
  refine ⟨h.raw, ?_⟩
  have hcondition : (Condition.fragment (.all [⟨op, v⟩]) field).looks d =
      (Condition.fragment (.all [⟨op, w⟩]) field).looks d := by
    refine looks_conjunction ?_
    rw [List.map_map, List.map_map, List.map_singleton, List.map_singleton]
    exact congrArg (fun l => [l]) (Comparison.looks_fragment hop hv (ident field))
  simp only [Predicate.push, List.map_append, h.fields, List.map_singleton, hcondition]

theorem Clause.looks_predicate {p p' : Predicate} (h : p.WrittenAlike d p') :
    (Clause.predicate p).looks d = (Clause.predicate p').looks d := by
  have hconditions : (conjunction (p.fields.map fun f => f.2.fragment f.1)).looks d =
      (conjunction (p'.fields.map fun f => f.2.fragment f.1)).looks d := by
    refine looks_conjunction ?_
    rw [List.map_map, List.map_map]
    exact h.fields
  unfold Clause.predicate
  rw [h.raw]
  cases p'.raw <;>
    simp only [looks_append, apply_ite (looks d), isEmpty_eq_of_looks hconditions, hconditions]

/-- The two queries differ in their filters at most, which are written alike. -/
def Query.WrittenAlike (d : Dialect) (q q' : Query) : Prop :=
  q.predicate.WrittenAlike d q'.predicate ∧ q' = { q with predicate := q'.predicate }

theorem Statement.render_select_of_writtenAlike {q q' : Query} (h : q.WrittenAlike d q')
    (table : String) (join : Option Join) :
    (select table q join).render d = (select table q' join).render d := by
  obtain ⟨hp, hq⟩ := h
  refine render_eq_of_looks ?_
  rw [hq]
  simp only [fragment, tail_eq, looks_append, Clause.looks_predicate hp]

/-! ### Plans that ask for the same texts -/

/-- The two plans ask for the same texts, whatever the replies are, and give the same result. -/
inductive Plan.SameTexts (d : Dialect) {α : Type} : Plan α → Plan α → Prop
  | done (result : Except Fault α) : SameTexts d (.done result) (.done result)
  | ask {s s' : Statement} {next next' : Reply → Plan α} (text : s.render d = s'.render d)
      (goesOn : ∀ reply, SameTexts d (next reply) (next' reply)) :
      SameTexts d (.ask s next) (.ask s' next')

namespace Plan.SameTexts

variable {α β : Type}

theorem refl (p : Plan α) : p.SameTexts d p := by
  induction p with
  | done result => exact .done result
  | ask s next ih => exact .ask rfl ih

theorem bind {p p' : Plan α} (h : p.SameTexts d p') {f f' : α → Plan β}
    (hf : ∀ a, (f a).SameTexts d (f' a)) : (p.bind f).SameTexts d (p'.bind f') := by
  induction h with
  | done result =>
    cases result with
    | ok a => exact hf a
    | error e => exact .done _
  | ask text _ ih => exact .ask text ih

theorem find {q q' : Query} (h : q.WrittenAlike d q') (t : Table) :
    (t.find q).SameTexts d (t.find q') :=
  .ask (Statement.render_select_of_writtenAlike h t.name none) fun _ => .done _

end Plan.SameTexts

/-! ### Pages from cursors with one text -/

theorem Direction.resume_ne (d : Direction) : d.resume ≠ .eq ∧ d.resume ≠ .ne := by
  cases d <;> decide

theorem Direction.beyond_ne (d : Direction) : d.beyond ≠ .eq ∧ d.beyond ≠ .ne := by
  cases d <;> decide

theorem Direction.within_ne (d : Direction) : d.within ≠ .eq ∧ d.within ≠ .ne := by
  cases d <;> decide

/-- The two walks differ in their cursors at most, which have the same texts. -/
structure Walk.WrittenAlike (d : Dialect) (w w' : Walk) : Prop where
  window : w.window.WrittenAlike d w'.window
  since : w.since.map Cursor.text = w'.since.map Cursor.text
  rest : w' = { w with window := w'.window, since := w'.since }

theorem Cursor.spelling_eq_of_text {c c' : Cursor} (h : c.text = c'.text) :
    c.value.spelling = c'.value.spelling :=
  String.ofList_injective h

namespace Walk.WrittenAlike

variable {w w' : Walk}

theorem page (h : w.WrittenAlike d w') (more : UInt64) :
    (w.page more).WrittenAlike d (w'.page more) := by
  obtain ⟨key, direction, limit, window, columns, since⟩ := w
  obtain ⟨hwindow, hsince, hrest⟩ := h
  rw [hrest]
  refine ⟨?_, rfl⟩
  cases since with
  | none =>
    have hsince : w'.since = none := by simpa using hsince.symm
    rw [hsince]
    exact hwindow
  | some c =>
    obtain ⟨c', hc', htext⟩ := Option.map_eq_some_iff.1 hsince.symm
    rw [hc']
    exact hwindow.push key direction.resume_ne (Cursor.spelling_eq_of_text htext.symm)

theorem probe (h : w.WrittenAlike d w') (last : Cursor) :
    (w.probe last).WrittenAlike d (w'.probe last) := by
  obtain ⟨hwindow, -, hrest⟩ := h
  rw [hrest]
  exact ⟨hwindow.push w.key w.direction.beyond_ne rfl, rfl⟩

theorem keyOf (h : w.WrittenAlike d w') : w.keyOf = w'.keyOf := by
  rw [h.rest]
  rfl

end Walk.WrittenAlike

theorem Walk.ofRequest_writtenAlike {r r' : PageRequest}
    (hsince : r.since.map Cursor.text = r'.since.map Cursor.text)
    (hbound : r.bound.map Cursor.text = r'.bound.map Cursor.text)
    (hrest : r' = { r with since := r'.since, bound := r'.bound }) (usualKey : String)
    (usualLimit : UInt64) :
    (Walk.ofRequest r usualKey usualLimit).WrittenAlike d
      (Walk.ofRequest r' usualKey usualLimit) := by
  obtain ⟨since, bound, limit, predicate, columns, key, reverse⟩ := r
  rw [hrest]
  refine ⟨?_, hsince, rfl⟩
  cases bound with
  | none =>
    have hbound : r'.bound = none := by simpa using hbound.symm
    rw [hbound]
    exact .refl _
  | some c =>
    obtain ⟨c', hc', htext⟩ := Option.map_eq_some_iff.1 hbound.symm
    rw [hc']
    exact (Predicate.WrittenAlike.refl predicate).push _ (Direction.within_ne _)
      (Cursor.spelling_eq_of_text htext.symm)

namespace Table

variable (t : Table) {w w' : Walk}

theorem probedPage_sameTexts (h : w.WrittenAlike d w') :
    (t.probedPage w).SameTexts d (t.probedPage w') := by
  unfold probedPage
  rw [h.keyOf]
  refine (Plan.SameTexts.find (h.page 0) t).bind fun rows => ?_
  cases rows.getLast? with
  | none => exact .refl _
  | some last =>
    refine (Plan.SameTexts.refl _).bind fun key => ?_
    exact (Plan.SameTexts.find (h.probe key) t).bind fun probed => .refl _

theorem overFetchedPage_sameTexts (h : w.WrittenAlike d w') :
    (t.overFetchedPage w).SameTexts d (t.overFetchedPage w') := by
  have hlimit : w'.limit = w.limit := by rw [h.rest]
  unfold overFetchedPage
  rw [h.keyOf, hlimit]
  exact (Plan.SameTexts.find (h.page 1) t).bind fun rows => .refl _

/-- **Pages that resume at cursors with one text, and end at cursors with one text, ask for the same
texts.** -/
theorem page_sameTexts {r r' : PageRequest}
    (hsince : r.since.map Cursor.text = r'.since.map Cursor.text)
    (hbound : r.bound.map Cursor.text = r'.bound.map Cursor.text)
    (hrest : r' = { r with since := r'.since, bound := r'.bound }) :
    (t.page r).SameTexts d (t.page r') := by
  have h := Walk.ofRequest_writtenAlike (d := d) hsince hbound hrest t.settings.key
    t.settings.pageSize
  unfold page
  cases t.settings.lookahead with
  | probe => exact t.probedPage_sameTexts h
  | overFetch => exact t.overFetchedPage_sameTexts h

end Table

/-! ### Cursors read from their text -/

namespace Cursor

theorem ofText_text (c : Cursor) : ofText c.text = .ok (ofKey c.value.readBack) := by
  rw [ofText, text, Value.ofLiteral_literal]
  rfl

/-- **The text of a cursor is read**, as text and as a member of a request.  The cursor that is read
has the same text unless the key is the negative zero or a text that spells a timestamp in another
way, and it is always read from its own text.  With the same text it takes the place of the first
cursor at both ends of every page. -/
theorem read_text (key : Value) :
    ∃ c : Cursor, ofText (ofKey key).text = .ok c ∧
      (∀ field, ofMember field (some (.text (ofKey key).text)) = .ok (some c)) ∧
      ofText c.text = .ok c ∧
      (c.text = (ofKey key).text ↔ key.KeepsLiteral) ∧
      (key.KeepsLiteral → ∀ (d : Dialect) (t : Table) (r : PageRequest),
        (t.page { r with since := some c }).SameTexts d
            (t.page { r with since := some (ofKey key) }) ∧
          (t.page { r with bound := some c }).SameTexts d
            (t.page { r with bound := some (ofKey key) })) := by
  have hread := ofText_text (ofKey key)
  have hkeeps : (ofKey (ofKey key).value.readBack).text = (ofKey key).text ↔ key.KeepsLiteral :=
    String.ofList_inj.trans (Value.spelling_wholeSecond_readBack_iff key)
  refine ⟨ofKey (ofKey key).value.readBack, hread, ?_, ?_, hkeeps, ?_⟩
  · intro field
    show (ofJson field (.text (ofKey key).text)).map some = _
    rw [ofJson, hread]
    rfl
  · rw [ofText_text]
    refine congrArg Except.ok ?_
    rw [Cursor.mk.injEq]
    exact Value.readBack_wholeSecond_readBack _
  · intro h d t r
    have htext := congrArg some (hkeeps.2 h)
    exact ⟨t.page_sameTexts htext rfl rfl, t.page_sameTexts rfl htext rfl⟩

/-- The cursor at a text with marks in it that spells no timestamp. -/
theorem read_text_marked :
    ∃ c : Cursor, ofText (ofKey (.text "\x27 OR")).text = .ok c ∧
      ∀ (d : Dialect) (t : Table) (r : PageRequest),
        (t.page { r with since := some c }).SameTexts d
          (t.page { r with since := some (ofKey (.text "\x27 OR")) }) := by
  have hnone : Timestamp.read? "\x27 OR".toList = none := by decide
  have hkeeps : Value.KeepsLiteral (.text "\x27 OR") := by
    intro t ht
    rw [hnone] at ht
    cases ht
  obtain ⟨c, hread, -, -, -, hpages⟩ := read_text (.text "\x27 OR")
  exact ⟨c, hread, fun d t r => (hpages hkeeps d t r).1⟩

/-- A timestamp that is spelled without leading zeros, and the negative zero, come back with another
text. -/
theorem read_text_changed :
    (ofText (ofKey (.text "2024-1-2 3:4:5")).text).map text = .ok "\x272024-01-02 03:04:05\x27" ∧
      (ofKey (.text "2024-1-2 3:4:5")).text = "\x272024-1-2 3:4:5\x27" ∧
      (ofText (ofKey (.real (.finite true ⟨0, by decide⟩))).text).map text = .ok "0" ∧
      (ofKey (.real (.finite true ⟨0, by decide⟩))).text = "-0" := by
  refine ⟨?_, ?_, ?_, ?_⟩ <;> decide

end Cursor

end Keyset
