import Keyset.Proofs.Json.Request
import Keyset.Proofs.Session.Faults
import Keyset.Proofs.Sql.NullTests
import Keyset.Proofs.Sql.Sentences
import Keyset.Proofs.Value.Integers

/-!
# Integers of JSON requests in statements

Where a request holds an integer, as an operand of its filter, as a value of its record or as one of
its cursors, the statement holds a numeral.

* `Statement.writes_of_comparison` : the comparisons of a filter in the text of a statement.
* `Json.mem_comparisons_of_operand` : the operands of a filter.
* `Json.exists_shownAs` : **all integers of a request, and the numerals that are shown for them.**
-/

namespace Keyset

open Decimal Fragment

/-! ### Numerals in statements -/

/-- In the statement the column is followed by the operator and the numeral of an integer, as pieces
of their own, and so they stand in its text. -/
structure Statement.Writes (s : Statement) (field : String) (op : Operator) (m : ℤ) : Prop where
  /-- The literal is a piece with this numeral. -/
  piece : ∃ v : Value, v.spelling = intText m ∧
    [.ident field, .token op.token, .literal v] <:+: s.fragment.pieces
  /-- The text in every dialect. -/
  text : ∀ d, d.name field ++ ' ' :: (op.token.text.toList ++ ' ' :: intText m) <:+:
    (s.render d).toList

variable {field : String} {op : Operator} {v : Value} {n m : ℤ}

theorem Fragment.spell_compare (d : Dialect) (field : String) (op : Operator) (v : Value) :
    spell d [.ident field, .token op.token, .literal v] =
      d.name field ++ ' ' :: (op.token.text.toList ++ ' ' :: v.spelling) := by
  cases op <;> simp [spell, Piece.spaced, Piece.role, Piece.spelling, Piece.opensWithSpace,
    Piece.endsWithSpace, Role.spaced, Operator.token, Token.isOperator]

theorem Clause.infix_predicate {p : Predicate} {entry : String × Comparison}
    (h : entry ∈ p.comparisons) : (Comparison.on entry).pieces <:+: (predicate p).pieces := by
  have hjoin := infix_join .AND (List.mem_map_of_mem (f := Comparison.on) h)
  have hne : p.comparisons ≠ [] := List.ne_nil_of_mem h
  rw [predicate_eq]
  refine .trans ?_ (infix_append_right _ _)
  cases hcs : p.comparisons with
  | nil => exact absurd hcs hne
  | cons c cs =>
    rw [hcs] at hjoin
    cases p.raw with
    | none => exact hjoin
    | some text => exact hjoin.trans (infix_append_right _ _)

namespace Statement

theorem writes_of_pieces {s : Statement} (hv : v.spelling = intText m)
    (h : [.ident field, .token op.token, .literal v] <:+: s.fragment.pieces) :
    s.Writes field op m where
  piece := ⟨v, hv, h⟩
  text d := by
    have htext := infix_spell d h
    rw [spell_compare, hv] at htext
    rwa [render, Fragment.render, String.toList_ofList]

theorem infix_tail (q : Query) (withOffset : Bool) :
    (Clause.predicate q.predicate).pieces <:+: (tail q withOffset).pieces := by
  rw [tail_eq, append_assoc, append_assoc]
  exact infix_append_left _ _

/-- **The comparisons of a query stand in all its statements.** -/
theorem writes_of_comparison {q : Query} (hv : v.spelling = intText m) (hne : v ≠ .null)
    (h : (field, ⟨op, v⟩) ∈ q.predicate.comparisons) (table : String) (record : Record)
    (stamps : Stamps) (j : Option Join) :
    (select table q j).Writes field op m ∧ (update table record stamps q).Writes field op m ∧
      (delete table q).Writes field op m := by
  have hpieces : (Comparison.on (field, ⟨op, v⟩)).pieces =
      [.ident field, .token op.token, .literal v] := by
    rw [Comparison.on, Comparison.fragment_eq_compare fun h => hne h.1]
    rfl
  have htail (withOffset : Bool) : [.ident field, .token op.token, .literal v] <:+:
      (tail q withOffset).pieces :=
    hpieces ▸ (Clause.infix_predicate h).trans (infix_tail q withOffset)
  exact ⟨writes_of_pieces hv ((htail true).trans (infix_append_right _ _)),
    writes_of_pieces hv ((htail false).trans (infix_append_right _ _)),
    writes_of_pieces hv ((htail false).trans (infix_append_right _ _))⟩

theorem writes_of_assignment {record : Record} (hv : v.spelling = intText m)
    (h : (field, v) ∈ record) (table : String) (stamps : Stamps) (q : Query) :
    (update table record stamps q).Writes field .eq m := by
  have hassigned := infix_join .comma (List.mem_append_left
    [((ident stamps.updated).push (.token .eq)).push .now]
    (List.mem_map_of_mem (f := fun f : String × Value => (ident f.1).compare .eq f.2) h))
  have hset := hassigned.trans (infix_append_right (token .SET) _)
  have hhead := hset.trans (infix_append_right (token .UPDATE ++ ident table) _)
  exact writes_of_pieces hv (hhead.trans (infix_append_left _ (tail q false)))

end Statement

namespace Json

/-! ### Integers in requests -/

/-- In this filter the integer is the operand of an operator on the field. -/
inductive Operand (field : String) (n : ℤ) : Operator → Json → Prop
  | value {members : List (String × Json)} (given : (field, integer n) ∈ members) :
    Operand field n .eq (object members)
  | operator {members operators : List (String × Json)} {op : Operator}
    (given : (field, object operators) ∈ members) (operand : (op.keyword, integer n) ∈ operators) :
    Operand field n op (object members)

theorem stands_integer_iff : Stands (integer n) v ↔ v = valueOfInteger n := by
  constructor
  · rintro (- | - | k | wide)
    · exact (valueOfInteger_toInt k).symm
    · exact (valueOfInteger_of_wide wide).symm
  · rintro rfl
    exact stands_valueOfInteger n

theorem exists_mem_of_forall₂ {α β : Type} {R : α → β → Prop} {as : List α} {bs : List β}
    (h : List.Forall₂ R as bs) {a : α} (ha : a ∈ as) : ∃ b ∈ bs, R a b := by
  induction h with
  | nil => cases ha
  | cons hab _ ih =>
    rcases List.mem_cons.1 ha with rfl | ha
    · exact ⟨_, List.mem_cons_self, hab⟩
    · obtain ⟨b, hb, hR⟩ := ih ha
      exact ⟨b, List.mem_cons_of_mem _ hb, hR⟩

/-- **The operands of a filter are compared as they are read.** -/
theorem mem_comparisons_of_operand {filter : Json} {p : Predicate} (hfilter : Filters filter p)
    (h : Operand field n op filter) : (field, ⟨op, valueOfInteger n⟩) ∈ p.comparisons := by
  have hmem {name : String} {c : Condition} {c' : Comparison} {fields : List (String × Condition)}
      (hf : (name, c) ∈ fields) (hc : c' ∈ c.comparisons) :
      (name, c') ∈ Predicate.comparisons { fields } :=
    List.mem_flatMap.2 ⟨_, hf, List.mem_map_of_mem hc⟩
  cases h with
  | value given =>
    obtain - | heach := hfilter
    obtain ⟨⟨name, c⟩, hf, rfl, himposes⟩ := exists_mem_of_forall₂ heach given
    obtain hv | - := himposes
    obtain rfl := stands_integer_iff.1 hv
    exact hmem hf List.mem_cons_self
  | operator given operand =>
    obtain - | heach := hfilter
    obtain ⟨⟨name, c⟩, hf, rfl, himposes⟩ := exists_mem_of_forall₂ heach given
    obtain hv | ⟨-, hall⟩ := himposes
    · cases hv
    · obtain ⟨⟨op', v⟩, hc, hname, hv⟩ := exists_mem_of_forall₂ hall operand
      obtain rfl := stands_integer_iff.1 hv
      obtain rfl := Operator.keyword_injective hname
      exact hmem hf hc

theorem mem_record_of_integer {members : List (String × Json)} {record : Record}
    (hread : Record.ofJson (object members) = .ok record) (h : (field, integer n) ∈ members) :
    (field, valueOfInteger n) ∈ record := by
  have heach (m : String × Json) := (reads_asValue m.1 m.2).map (m.1, ·)
  obtain ⟨f, hf, v, hv, rfl⟩ :=
    exists_mem_of_forall₂ (((Reads.mapM heach members).ok_iff record).1 hread) h
  obtain rfl := stands_integer_iff.1 hv
  exact hf

theorem valueOfInteger_ne_null (n : ℤ) : valueOfInteger n ≠ .null := by
  unfold valueOfInteger
  split_ifs <;> nofun

theorem value_of_cursor {name other : String} {members : List (String × Json)}
    {given : Option Cursor} (hcursor : Given MarksSome none (cursor? name other members) given)
    (h : either? name other members = some (integer n)) :
    ∃ c, given = some c ∧ c.value = valueOfInteger n := by
  have hthere : cursor? name other members = some (integer n) := by
    rw [cursor?, h]
    rfl
  rw [hthere] at hcursor
  obtain ⟨c, hmarks, rfl⟩ := hcursor
  obtain - | - | ⟨-, hv⟩ := hmarks
  obtain rfl := stands_integer_iff.1 hv
  refine ⟨_, rfl, ?_⟩
  unfold valueOfInteger
  split_ifs <;> rfl

end Json

/-! ### The statements of a page -/

theorem Predicate.comparisons_push (p : Predicate) (field : String) (c : Comparison) :
    (p.push field c).comparisons = p.comparisons ++ [(field, c)] := by
  simp [push, comparisons, Condition.comparisons]

namespace Walk

variable {r : PageRequest}

theorem comparisons_subset_window (usualKey : String) (usualLimit : UInt64) :
    r.predicate.comparisons ⊆ (ofRequest r usualKey usualLimit).window.comparisons := by
  unfold ofRequest
  cases r.bound with
  | none => exact List.Subset.refl _
  | some c =>
    dsimp only
    rw [Predicate.comparisons_push]
    exact List.subset_append_left _ _

theorem window_subset_page (w : Walk) (more : UInt64) :
    w.window.comparisons ⊆ (w.page more).predicate.comparisons := by
  unfold page
  cases w.since with
  | none => exact List.Subset.refl _
  | some c =>
    dsimp only
    rw [Predicate.comparisons_push]
    exact List.subset_append_left _ _

theorem window_subset_probe (w : Walk) (last : Cursor) :
    w.window.comparisons ⊆ (w.probe last).predicate.comparisons := by
  unfold probe
  dsimp only
  rw [Predicate.comparisons_push]
  exact List.subset_append_left _ _

theorem mem_window_of_bound {c : Cursor} (h : r.bound = some c) (usualKey : String)
    (usualLimit : UInt64) : (r.key.getD usualKey, ⟨r.direction.within, c.value⟩) ∈
      (ofRequest r usualKey usualLimit).window.comparisons := by
  unfold ofRequest
  rw [h]
  dsimp only
  rw [Predicate.comparisons_push]
  exact List.mem_append_right _ List.mem_cons_self

theorem mem_page_of_since {w : Walk} {c : Cursor} (h : w.since = some c) (more : UInt64) :
    (w.key, ⟨w.direction.resume, c.value⟩) ∈ (w.page more).predicate.comparisons := by
  unfold page
  rw [h]
  dsimp only
  rw [Predicate.comparisons_push]
  exact List.mem_append_right _ List.mem_cons_self

end Walk

/-- All statements of a page are selections with the filter of the walk. -/
theorem Host.select_of_mem_exchanges {σ : Type} {h : Host σ} {t : Table} {r : PageRequest}
    {x : Session σ} {s : Statement} {reply : Reply}
    (hs : (s, reply) ∈ h.exchanges (t.page r) x.store) :
    ∃ q, s = .select t.name q none ∧
      (t.stretch r).window.comparisons ⊆ q.predicate.comparisons := by
  obtain ⟨reply', rest, hasked, hpast, hnone⟩ :=
    (pageExchanges_page (h := h) (t := t) (r := r) x).second
  rw [hasked] at hs
  rcases List.mem_cons.1 hs with hfirst | hs
  · cases hfirst
    exact ⟨_, rfl, Walk.window_subset_page _ _⟩
  · by_cases hlook : ∃ key, t.LooksPast r reply' key
    · obtain ⟨key, hkey⟩ := hlook
      obtain ⟨reply'', rfl⟩ := hpast key hkey
      cases List.mem_singleton.1 hs
      exact ⟨_, rfl, Walk.window_subset_probe _ _⟩
    · rw [hnone (not_exists.1 hlook)] at hs
      cases hs

namespace Json

/-! ### Integers and their numerals -/

/-- Wherever a request holds the integer `n`, its statements have the numeral of `m`. -/
structure ShownAs (n m : ℤ) : Prop where
  /-- As an operand of the filter of a query, in all statements with this query. -/
  operand : ∀ {members : List (String × Json)} {q : Query} {filter : Json} {field : String}
    {op : Operator}, Query.ofJson (object members) = .ok q →
    either? "where" "predicate" members = some filter → Operand field n op filter →
    ∀ table record stamps join, (Statement.select table q join).Writes field op m ∧
      (Statement.update table record stamps q).Writes field op m ∧
      (Statement.delete table q).Writes field op m
  /-- As an operand of the filter of a page, in all statements of the page. -/
  pageOperand : ∀ {members : List (String × Json)} {r : PageRequest} {filter : Json}
    {field : String} {op : Operator}, PageRequest.ofJson (object members) = .ok r →
    either? "where" "predicate" members = some filter → Operand field n op filter →
    ∀ {σ : Type} (h : Host σ) (t : Table) (x : Session σ),
      ∀ e ∈ h.exchanges (t.page r) x.store, e.1.Writes field op m
  /-- As a value of a record, at its column in a new row and in a change. -/
  record : ∀ {members : List (String × Json)} {record : Record} {field : String},
    Record.ofJson (object members) = .ok record → (field, integer n) ∈ members →
    ∀ table stamps,
      (∀ d, ∃ columns entries,
        Sentence.read? d ((Statement.insert table record stamps).render d) =
          some (.insert table columns entries) ∧
        (field, .literal (String.ofList (intText m))) ∈ columns.zip entries) ∧
      ∀ q, (Statement.update table record stamps q).Writes field .eq m
  /-- As the resume point, in the first statement of the page. -/
  since : ∀ {members : List (String × Json)} {r : PageRequest},
    PageRequest.ofJson (object members) = .ok r →
    either? "sinceId" "since_id" members = some (integer n) →
    ∀ {σ : Type} (h : Host σ) (t : Table) (x : Session σ),
      ∃ e rest, h.exchanges (t.page r) x.store = e :: rest ∧
        e.1.Writes (t.keyOf r) r.direction.resume m
  /-- As the end of the walk, in all statements of the page. -/
  bound : ∀ {members : List (String × Json)} {r : PageRequest},
    PageRequest.ofJson (object members) = .ok r →
    either? "maxId" "max_id" members = some (integer n) →
    ∀ {σ : Type} (h : Host σ) (t : Table) (x : Session σ),
      ∀ e ∈ h.exchanges (t.page r) x.store, e.1.Writes (t.keyOf r) r.direction.within m

theorem shownAs_of_spelling (hv : (valueOfInteger n).spelling = intText m) : ShownAs n m where
  operand := by
    intro members q filter field op hread hfilter hoperand table record stamps join
    have hgiven := (((reads_query_object members).ok_iff q).1 hread).filter
    rw [hfilter] at hgiven
    exact Statement.writes_of_comparison hv (valueOfInteger_ne_null n)
      (mem_comparisons_of_operand hgiven hoperand) table record stamps join
  pageOperand := by
    intro members r filter field op hread hfilter hoperand σ h t x e he
    have hgiven := (((reads_page_object members).ok_iff r).1 hread).filter
    rw [hfilter] at hgiven
    obtain ⟨q, hq, hsubset⟩ := Host.select_of_mem_exchanges he
    have hmem := hsubset (Walk.comparisons_subset_window _ _
      (mem_comparisons_of_operand hgiven hoperand))
    rw [hq]
    exact (Statement.writes_of_comparison hv (valueOfInteger_ne_null n) hmem t.name [] {} none).1
  record := by
    intro members record field hread hmem table stamps
    have hvalue : (field, valueOfInteger n) ∈ record := mem_record_of_integer hread hmem
    refine ⟨fun d => ?_, fun q => Statement.writes_of_assignment hv hvalue table stamps q⟩
    refine ⟨_, _, Sentence.read?_render (Statement.plain_insert table record stamps)
      (Reader.reads_insert table record stamps), ?_⟩
    have hliteral : (valueOfInteger n).literal = String.ofList (intText m) :=
      congrArg String.ofList hv
    rw [List.zip_append (by simp), List.zip_map', ← hliteral]
    exact List.mem_append_left _ (List.mem_map_of_mem hvalue)
  since := by
    intro members r hread hsince σ h t x
    have hgiven := (((reads_page_object members).ok_iff r).1 hread).since
    obtain ⟨c, hc, hvalue⟩ := value_of_cursor hgiven hsince
    obtain ⟨reply, rest, hasked, -⟩ := (Host.pageExchanges_page (h := h) (t := t) (r := r) x).second
    have hmem := Walk.mem_page_of_since (w := t.stretch r) hc
      (if t.settings.lookahead = .probe then 0 else 1)
    rw [hvalue] at hmem
    exact ⟨_, rest, hasked,
      (Statement.writes_of_comparison hv (valueOfInteger_ne_null n) hmem t.name [] {} none).1⟩
  bound := by
    intro members r hread hbound σ h t x e he
    have hgiven := (((reads_page_object members).ok_iff r).1 hread).bound
    obtain ⟨c, hc, hvalue⟩ := value_of_cursor hgiven hbound
    obtain ⟨q, hq, hsubset⟩ := Host.select_of_mem_exchanges he
    have hmem := Walk.mem_window_of_bound hc t.settings.key t.settings.pageSize
    rw [hvalue] at hmem
    rw [hq]
    exact (Statement.writes_of_comparison hv (valueOfInteger_ne_null n) (hsubset hmem)
      t.name [] {} none).1

/-- **Every integer of a request is shown as an integer**: as itself, if it fits into sixty-four
signed bits.  Otherwise it is shown as an integer with the same nearest double, of which the last
three digits are zeros.  No integer with this double ends in more zeros, and none that ends in as
many is nearer to it. -/
theorem exists_shownAs {n : ℤ} (low : -2 ^ 63 ≤ n) (high : n < 2 ^ 64) :
    ∃ m, WrittenAs n m ∧ ShownAs n m := by
  obtain ⟨m, hm, hspelling⟩ := exists_writtenAs low high
  exact ⟨m, hm, shownAs_of_spelling hspelling⟩

/-- An integer that fits, the smallest one, and one that does not. -/
theorem exists_shownAs_wide :
    ShownAs (-9223372036854775808) (-9223372036854775808) ∧
      ∃ m, WrittenAs 9223372036854775809 m ∧ ShownAs 9223372036854775809 m ∧
        m ≠ 9223372036854775809 := by
  obtain ⟨k, hk, hfits⟩ := exists_shownAs (n := -9223372036854775808) (by decide) (by decide)
  obtain rfl := hk.exact (by decide)
  obtain ⟨m, hm, hwide⟩ := exists_shownAs (n := 9223372036854775809) (by decide) (by decide)
  refine ⟨hfits, m, hm, hwide, ?_⟩
  rintro rfl
  exact absurd (hm.thousands (by decide)) (by decide)

/-- An integer between two doubles is shown as another one. -/
theorem integer_shown_as_other :
    ∃ q, Query.ofJson (object [("where", object [("id", integer 9223372036854775809)])]) = .ok q ∧
      (Statement.select "posts" q none).render .sqlite =
        "SELECT * FROM \x22posts\x22 WHERE \x22id\x22 = 9223372036854776000" ∧
      ¬ (Statement.select "posts" q none).Writes "id" .eq 9223372036854775809 := by
  refine ⟨_, rfl, by decide +kernel, fun h => ?_⟩
  exact absurd (h.text .sqlite) (by decide +kernel)

end Json

end Keyset
