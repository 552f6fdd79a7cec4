import Keyset.Proofs.Value.ReadBack
import Mathlib.Algebra.Group.Nat.Even

/-!
# Which quoted texts are read

A text is written between quotes, with every quote inside written twice.  It is read by taking off
the quotes at the ends and making one quote of every two inside, from the left.  A quote without a
partner is not refused: it stays, and the text is read as if this quote had been written twice.

* `Text.undouble_eq_iff` : which bodies are read as a text.
* `Text.double_undouble_iff` : **a body is written as it was read iff its rows of quotes are even.**
* `Text.forall_spells_iff` : a text with a quote is read from other bodies, too.
* `Value.ofLiteral_eq_text_iff` : **which literals are read as a text.**
-/

namespace Keyset

namespace Text

/-- The body is read as the text.  A quote of the text stands for two of the body, or for the last
one of a row of quotes. -/
inductive Spells (q : Char) : List Char → List Char → Prop
  | nil : Spells q [] []
  | char {c : Char} {body s : List Char} (plain : c ≠ q) (rest : Spells q body s) :
    Spells q (c :: body) (c :: s)
  | pair {body s : List Char} (rest : Spells q body s) : Spells q (q :: q :: body) (q :: s)
  | last {body s : List Char} (ends : body.head? ≠ some q) (rest : Spells q body s) :
    Spells q (q :: body) (q :: s)

/-- Every row of quotes in the body has an even number of them, where a row is as long as it can
be. -/
def EvenRows (q : Char) (body : List Char) : Prop :=
  ∀ before n after, body = before ++ (List.replicate n q ++ after) → before.getLast? ≠ some q →
    after.head? ≠ some q → Even n

variable {q c : Char} {body s : List Char}

/-! ### The text of a body -/

theorem between?_eq_some_iff : between? q s = some body ↔ s = q :: (body ++ [q]) := by
  cases s with
  | nil => simp [between?]
  | cons c s =>
    rw [between?]
    constructor
    · intro h
      split_ifs at h with hends
      obtain ⟨rfl, hlast⟩ := hends
      obtain rfl := Option.some.inj h
      rw [List.dropLast_append_getLast? _ hlast]
    · intro h
      obtain ⟨rfl, rfl⟩ := List.cons.inj h
      rw [if_pos ⟨rfl, List.getLast?_concat⟩, List.dropLast_concat]

theorem undouble_pair (body : List Char) : undouble q (q :: q :: body) = q :: undouble q body := by
  rw [undouble, if_pos ⟨rfl, rfl⟩]

theorem undouble_last (ends : body.head? ≠ some q) :
    undouble q (q :: body) = q :: undouble q body := by
  cases body with
  | nil => rfl
  | cons b body => rw [undouble, if_neg fun h => ends (congrArg some h.2)]

theorem spells_undouble (q : Char) (body : List Char) : Spells q body (undouble q body) := by
  fun_induction undouble q body with
  | case1 => exact .nil
  | case2 c =>
    by_cases hc : c = q
    · rw [hc]
      exact .last nofun .nil
    · exact .char hc .nil
  | case3 a b body hpair ih =>
    obtain ⟨rfl, rfl⟩ := hpair
    exact .pair ih
  | case4 a b body hpair ih =>
    by_cases ha : a = q
    · subst ha
      exact .last (fun hb => hpair ⟨rfl, Option.some.inj hb⟩) ih
    · exact .char ha ih

/-- **Which bodies are read as a text.** -/
theorem undouble_eq_iff : undouble q body = s ↔ Spells q body s := by
  constructor
  · rintro rfl
    exact spells_undouble q body
  · intro h
    induction h with
    | nil => rfl
    | char plain _ ih => rw [undouble_cons_of_ne plain, ih]
    | pair _ ih => rw [undouble_pair, ih]
    | last ends _ ih => rw [undouble_last ends, ih]

/-! ### Rows of quotes -/

theorem evenRows_nil (q : Char) : EvenRows q [] := by
  intro before n after hbody _ _
  obtain ⟨-, hrow⟩ := List.append_eq_nil_iff.1 hbody.symm
  obtain ⟨hn, -⟩ := List.append_eq_nil_iff.1 hrow
  rw [(List.replicate_eq_nil_iff q).1 hn]
  exact Even.zero

theorem getLast?_cons_ne_iff (hc : c ≠ q) :
    (c :: s).getLast? ≠ some q ↔ s.getLast? ≠ some q := by
  cases s with
  | nil => simp [hc]
  | cons b s => rw [List.getLast?_cons_cons]

theorem evenRows_cons_iff (hc : c ≠ q) : EvenRows q (c :: body) ↔ EvenRows q body := by
  constructor
  · intro h before n after hbody hbefore hafter
    exact h (c :: before) n after (congrArg (c :: ·) hbody) ((getLast?_cons_ne_iff hc).2 hbefore)
      hafter
  · intro h before n after hbody hbefore hafter
    cases before with
    | nil =>
      cases n with
      | zero => exact Even.zero
      | succ n => exact absurd (List.cons.inj hbody).1 hc
    | cons b before =>
      obtain ⟨rfl, hrest⟩ := List.cons.inj hbody
      exact h before n after hrest ((getLast?_cons_ne_iff hc).1 hbefore) hafter

theorem evenRows_pair_iff : EvenRows q (q :: q :: body) ↔ EvenRows q body := by
  constructor
  · intro h before n after hbody hbefore hafter
    cases before with
    | nil =>
      -- the row at the front is longer by two
      have heven := h [] (n + 2) after (by rw [hbody]; rfl) nofun hafter
      exact (Nat.even_add.1 heven).2 even_two
    | cons b before =>
      exact h (q :: q :: b :: before) n after (congrArg (q :: q :: ·) hbody) hbefore hafter
  · intro h before n after hbody hbefore hafter
    match before, n with
    | [], 0 => exact Even.zero
    | [], 1 =>
      obtain ⟨-, rfl⟩ := List.cons.inj hbody
      exact absurd rfl hafter
    | [], n + 2 =>
      have hrest : body = [] ++ (List.replicate n q ++ after) :=
        (List.cons.inj (List.cons.inj hbody).2).2
      exact (h [] n after hrest nofun hafter).add even_two
    | [b], n =>
      obtain ⟨rfl, -⟩ := List.cons.inj hbody
      exact absurd rfl hbefore
    | b :: b' :: before, n =>
      obtain ⟨rfl, htail⟩ := List.cons.inj hbody
      obtain ⟨rfl, hrest⟩ := List.cons.inj htail
      refine h before n after hrest ?_ hafter
      cases before with
      | nil => exact nofun
      | cons b before => exact hbefore

theorem not_evenRows_last (ends : body.head? ≠ some q) : ¬ EvenRows q (q :: body) :=
  fun h => absurd (h [] 1 body rfl nofun ends) (by decide)

/-- **A body is written as it was read iff its rows of quotes are even.** -/
theorem double_undouble_iff : double q (undouble q body) = body ↔ EvenRows q body := by
  -- a row of one quote, that a body has and no doubled text has
  have hlast {body : List Char} (ends : body.head? ≠ some q) :
      double q (undouble q (q :: body)) ≠ q :: body := by
    rw [undouble_last ends, double, if_pos rfl]
    intro h
    rw [← (List.cons.inj h).2] at ends
    exact ends rfl
  induction body using undouble.induct q with
  | case1 => exact iff_of_true rfl (evenRows_nil q)
  | case2 c =>
    by_cases hc : c = q
    · have ends : [].head? ≠ some q := (Option.some_ne_none q).symm
      rw [hc]
      exact iff_of_false (hlast ends) (not_evenRows_last ends)
    · rw [undouble, double, if_neg hc, double, evenRows_cons_iff hc]
      exact iff_of_true rfl (evenRows_nil q)
  | case3 a b body hpair ih =>
    obtain ⟨rfl, rfl⟩ := hpair
    rw [undouble_pair, double, if_pos rfl, evenRows_pair_iff]
    simpa using ih
  | case4 a b body hpair ih =>
    by_cases ha : a = q
    · subst ha
      have ends : (b :: body).head? ≠ some a := fun hb => hpair ⟨rfl, Option.some.inj hb⟩
      exact iff_of_false (hlast ends) (not_evenRows_last ends)
    · rw [undouble_cons_of_ne ha, double, if_neg ha, evenRows_cons_iff ha]
      simpa using ih

/-! ### Other bodies of a text -/

theorem undouble_double_append (s body : List Char) :
    undouble q (double q s ++ body) = s ++ undouble q body := by
  induction s with
  | nil => rfl
  | cons c s ih =>
    rw [double]
    split_ifs with hc
    · rw [List.cons_append, List.cons_append, undouble_pair, ih, hc, List.cons_append]
    · rw [List.cons_append, undouble_cons_of_ne hc, ih, List.cons_append]

theorem undouble_cons_double (s : List Char) : undouble q (q :: double q s) = q :: s := by
  induction s with
  | nil => rfl
  | cons c s ih =>
    rw [double]
    split_ifs with hc
    · rw [undouble_pair, ih, hc]
    · have ends : (c :: double q s).head? ≠ some q := fun h => hc (Option.some.inj h)
      rw [undouble_last ends, undouble_cons_of_ne hc, undouble_double]

theorem double_append (s t : List Char) : double q (s ++ t) = double q s ++ double q t := by
  induction s with
  | nil => rfl
  | cons c s ih =>
    rw [List.cons_append, double, double, ih]
    split_ifs <;> rfl

theorem Spells.eq_double (h : Spells q body s) (hmem : q ∉ s) : body = double q s := by
  induction h with
  | nil => rfl
  | char plain rest ih =>
    rw [double, if_neg plain, ← ih fun hs => hmem (List.mem_cons_of_mem _ hs)]
  | pair rest ih => exact absurd List.mem_cons_self hmem
  | last ends rest ih => exact absurd List.mem_cons_self hmem

/-- A text is read from no other body than the one that is written iff no quote is in it. -/
theorem forall_spells_iff : (∀ body, Spells q body s → body = double q s) ↔ q ∉ s := by
  constructor
  · intro h hmem
    obtain ⟨a, b, rfl⟩ := List.append_of_mem hmem
    have hread : undouble q (double q a ++ q :: double q b) = a ++ q :: b := by
      rw [undouble_double_append, undouble_cons_double]
    have hsame := h _ (undouble_eq_iff.1 hread)
    rw [double_append, double, if_pos rfl] at hsame
    simp at hsame
  · intro hmem body h
    exact h.eq_double hmem

end Text

/-! ### Literals of texts -/

namespace Value

open Text

/-- Between the blanks around it, the literal has this body between two quotes. -/
def Encloses (s : String) (body : List Char) : Prop :=
  trim s.toList = quoteMark :: (body ++ [quoteMark])

variable {s t : String} {body : List Char}

theorem read?_between (body : List Char) :
    read? (quoteMark :: (body ++ [quoteMark])) = some (ofQuoted body) := by
  rw [read?, ofWord?_quote, between?_eq_some_iff.2 rfl]
  rfl

theorem read?_eq_text_iff {s : List Char} : read? s = some (text t) ↔
    ∃ body, s = quoteMark :: (body ++ [quoteMark]) ∧ ofQuoted body = text t := by
  constructor
  · intro h
    simp only [read?, Option.or_eq_some_iff] at h
    rcases h with h | ⟨-, h | ⟨-, h | ⟨-, h⟩⟩⟩
    · obtain h | ⟨b, h⟩ := null_or_bool_of_ofWord? h <;> cases h
    · obtain ⟨body, hbody, htext⟩ := Option.map_eq_some_iff.1 h
      exact ⟨body, between?_eq_some_iff.1 hbody, htext⟩
    · obtain ⟨n, -, hn⟩ := ofInteger?_eq_some_iff.1 h
      cases hn
    · obtain ⟨x, -, hx⟩ := Option.map_eq_some_iff.1 h
      cases hx
  · rintro ⟨body, rfl, h⟩
    rw [read?_between, h]

theorem ofQuoted_eq_text_iff : ofQuoted body = text t ↔
    Timestamp.read? t.toList = none ∧ Spells quoteMark body t.toList := by
  have htext : text (String.ofList (undouble quoteMark body)) = text t ↔
      undouble quoteMark body = t.toList := by
    rw [text.injEq, ← String.toList_inj, String.toList_ofList]
  rw [← undouble_eq_iff, ofQuoted]
  cases h : Timestamp.read? (undouble quoteMark body) with
  | none =>
    simp only [htext]
    constructor
    · intro hbody
      rw [← hbody]
      exact ⟨h, rfl⟩
    · exact And.right
  | some stamp =>
    constructor
    · intro hstamp
      cases hstamp
    · rintro ⟨hnone, hbody⟩
      rw [hbody, hnone] at h
      cases h

theorem eq_singleton_or_exists_between {s : List Char} (front : s.head? = some quoteMark)
    (back : s.getLast? = some quoteMark) :
    s = [quoteMark] ∨ ∃ body, s = quoteMark :: (body ++ [quoteMark]) := by
  cases s with
  | nil => cases front
  | cons c s =>
    obtain rfl := Option.some.inj front
    cases s with
    | nil => exact .inl rfl
    | cons b s =>
      rw [List.getLast?_cons_cons] at back
      exact .inr ⟨_, by rw [List.dropLast_append_getLast? _ back]⟩

theorem ofLiteral_eq_error_iff {e : Fault} : ofLiteral s = .error e ↔
    read? (trim s.toList) = none ∧ e = .badCursor (String.ofList (trim s.toList)) := by
  unfold ofLiteral
  dsimp only
  cases read? (trim s.toList) <;> simp [eq_comm]

theorem encloses_ofList (body : List Char) :
    Encloses (String.ofList (quoteMark :: (body ++ [quoteMark]))) body := by
  rw [Encloses, String.toList_ofList, (trimmed_between body).trim_eq]

/-- The literal is the one of the text iff its body is the one that is written. -/
theorem Encloses.eq_literal_iff (h : Encloses s body) :
    String.ofList (trim s.toList) = (text t).literal ↔ body = double quoteMark t.toList := by
  have hspelling : (text t).spelling =
      quoteMark :: (double quoteMark t.toList ++ [quoteMark]) := rfl
  rw [h, literal, String.ofList_inj, hspelling, List.cons.injEq, and_iff_right rfl,
    List.append_cancel_right_eq]

/-- **Which literals are read as a text**, but for the blanks around them: those with a body that
spells the text, if it is no timestamp.  Such a literal is the one of the text iff the rows of
quotes in its body are even, and so it is the only one iff there is no quote in the text.  Nothing
that begins and ends with a quote is refused, but for one quote alone. -/
theorem ofLiteral_eq_text_iff (t : String) :
    (∀ s, ofLiteral s = .ok (text t) ↔ Timestamp.read? t.toList = none ∧
      ∃ body, Encloses s body ∧ Spells quoteMark body t.toList) ∧
    (∀ s body, ofLiteral s = .ok (text t) → Encloses s body →
      (String.ofList (trim s.toList) = (text t).literal ↔ EvenRows quoteMark body)) ∧
    (Timestamp.read? t.toList = none →
      ((∀ s, ofLiteral s = .ok (text t) → String.ofList (trim s.toList) = (text t).literal) ↔
        quoteMark ∉ t.toList)) ∧
    ∀ s e, (trim s.toList).head? = some quoteMark → (trim s.toList).getLast? = some quoteMark →
      (ofLiteral s = .error e ↔
        trim s.toList = [quoteMark] ∧ e = .badCursor (String.singleton quoteMark)) := by
  have hread (s : String) : ofLiteral s = .ok (text t) ↔ Timestamp.read? t.toList = none ∧
      ∃ body, Encloses s body ∧ Spells quoteMark body t.toList := by
    simp only [ofLiteral_eq_ok_iff, read?_eq_text_iff, ofQuoted_eq_text_iff, Encloses]
    tauto
  refine ⟨hread, ?_, ?_, ?_⟩
  · intro s body hs hbody
    obtain ⟨-, body', hbody', hspells⟩ := (hread s).1 hs
    obtain rfl : body = body' := by simpa using hbody.symm.trans hbody'
    rw [hbody.eq_literal_iff, ← double_undouble_iff, undouble_eq_iff.2 hspells, eq_comm]
  · intro hnone
    rw [← forall_spells_iff]
    constructor
    · intro h body hspells
      have hbody := encloses_ofList body
      exact hbody.eq_literal_iff.1 (h _ ((hread _).2 ⟨hnone, body, hbody, hspells⟩))
    · intro h s hs
      obtain ⟨-, body, hbody, hspells⟩ := (hread s).1 hs
      exact hbody.eq_literal_iff.2 (h body hspells)
  · intro s e front back
    rw [ofLiteral_eq_error_iff]
    rcases eq_singleton_or_exists_between front back with h | ⟨body, h⟩
    · have hlone : read? [quoteMark] = none := by decide
      rw [h, hlone]
      exact and_congr_left' (iff_of_true rfl rfl)
    · rw [h, read?_between]
      simp

/-- A text with a quote, which has its own literal and another one. -/
theorem ofLiteral_eq_text_iff_two :
    ofLiteral " 'o''neil' " = .ok (text "o'neil") ∧
      String.ofList (trim " 'o''neil' ".toList) = (text "o'neil").literal ∧
      ∃ s, ofLiteral s = .ok (text "o'neil") ∧
        String.ofList (trim s.toList) ≠ (text "o'neil").literal := by
  obtain ⟨hread, hown, honly, -⟩ := ofLiteral_eq_text_iff "o'neil"
  have hnone : Timestamp.read? "o'neil".toList = none := by decide
  have hbody : Encloses " 'o''neil' " "o''neil".toList := by unfold Encloses; decide
  have hspells : Spells quoteMark "o''neil".toList "o'neil".toList := undouble_eq_iff.1 (by decide)
  have heven : EvenRows quoteMark "o''neil".toList := double_undouble_iff.1 (by decide)
  have hown' := (hread " 'o''neil' ").2 ⟨hnone, _, hbody, hspells⟩
  refine ⟨hown', (hown _ _ hown' hbody).2 heven, ?_⟩
  have hother := mt (honly hnone).1 (by decide)
  simpa using hother

/-- A quote without a partner is not refused, and two literals are read as one text. -/
theorem ofLiteral_keeps_quote :
    ofLiteral "'o'neil'" = .ok (text "o'neil") ∧ ofLiteral "'o''neil'" = .ok (text "o'neil") ∧
      (text "o'neil").literal = "'o''neil'" ∧ trim "'o'neil'".toList = "'o'neil'".toList := by
  refine ⟨?_, ?_, ?_, ?_⟩ <;> decide

end Value

end Keyset
