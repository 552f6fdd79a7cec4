import Keyset.Proofs.Sql.Composition
import Keyset.Proofs.Sql.Conditions

/-!
# Null tests

A comparison is written as a sign between its sides (`Fragment.compare`), as a comparison of a
filter (`Comparison.fragment`) or, for a column, as a condition on it (`Condition.fragment`).  In a
filter, equality with the absent value and the lack of it are null tests.  The bare sign knows
nothing of them: it writes `= NULL` and `<> NULL`, which are true of no row.

* `Comparison.fragment_eq_compare` : what is no null test is written alike.
* `Comparison.render_compare_ne` : a null test is not, in the text of any dialect.
* `Condition.fragment_is`, `Condition.fragment_all_singleton` : conditions are comparisons.
* `Comparison.compare_eq_fragment_iff` : **the ways of writing agree on everything but null tests.**
-/

namespace Keyset

open Fragment

namespace Comparison

/-- The comparison asks whether its left side is absent, or whether it is not. -/
def IsNullTest (c : Comparison) : Prop := c.operand = .null ∧ (c.operator = .eq ∨ c.operator = .ne)

instance (c : Comparison) : Decidable c.IsNullTest := inferInstanceAs (Decidable (_ ∧ (_ ∨ _)))

variable {c : Comparison}

theorem eq_of_isNullTest (h : c.IsNullTest) : c = ⟨.eq, .null⟩ ∨ c = ⟨.ne, .null⟩ := by
  obtain ⟨op, v⟩ := c
  obtain ⟨rfl, rfl | rfl⟩ := h
  · exact .inl rfl
  · exact .inr rfl

theorem fragment_eq_compare (h : ¬ c.IsNullTest) (left : Fragment) :
    c.fragment left = left.compare c.operator.token c.operand := by
  obtain ⟨op, v⟩ := c
  cases op with
  | eq =>
    cases v with
    | null => exact absurd ⟨rfl, .inl rfl⟩ h
    | bool | integer | real | text | timestamp => rfl
  | ne =>
    cases v with
    | null => exact absurd ⟨rfl, .inr rfl⟩ h
    | bool | integer | real | text | timestamp => rfl
  | lt | gt | le | ge => rfl

/-- **A null test is not written as its sign is**, whatever is on its left side. -/
theorem render_compare_ne (h : c.IsNullTest) (d : Dialect) (left : Fragment) :
    (left.compare c.operator.token c.operand).render d ≠ (c.fragment left).render d := by
  have hsigned (t : Token) : left.compare t .null = left ++ ⟨[.token t, .literal .null]⟩ := by
    rw [Fragment.compare, push_eq_append, append_assoc]
    rfl
  intro hrender
  -- what follows the left side begins with a sign in one text and with a word in the other
  obtain rfl | rfl := eq_of_isNullTest h
  · have htexts := exists_spaces_of_render_eq (b := tokens [.IS, .NULL]) (hsigned .eq ▸ hrender)
    cases d <;> revert htexts <;> decide
  · have htexts :=
      exists_spaces_of_render_eq (b := tokens [.IS, .NOT, .NULL]) (hsigned .ne ▸ hrender)
    cases d <;> revert htexts <;> decide

theorem compare_eq_iff (c : Comparison) (left : Fragment) :
    left.compare c.operator.token c.operand = c.fragment left ↔ ¬ c.IsNullTest := by
  constructor
  · intro hsame hnull
    exact render_compare_ne hnull .sqlite left (congrArg (render .sqlite) hsame)
  · intro h
    rw [fragment_eq_compare h]

end Comparison

/-! ### Conditions -/

namespace Condition

theorem fragment_is (v : Value) (field : String) :
    (is v).fragment field = Comparison.fragment ⟨.eq, v⟩ (ident field) := by
  cases v <;> rfl

theorem fragment_all_singleton (c : Comparison) (field : String) :
    (all [c]).fragment field = c.fragment (ident field) := by
  have hne : ∀ a ∈ [Comparison.on (field, c)], a.isEmpty = false :=
    List.forall_mem_singleton.2 (Comparison.isEmpty_on (field, c))
  exact conjunction_of_forall hne

end Condition

/-- **The ways to write a comparison agree on everything but null tests**, as fragments and in the
text of any dialect.  In a filter a null test is one, whether the column is compared or is to have a
value. -/
theorem Comparison.compare_eq_fragment_iff (c : Comparison) (left : Fragment) :
    (left.compare c.operator.token c.operand = c.fragment left ↔ ¬ c.IsNullTest) ∧
      (∀ d, (left.compare c.operator.token c.operand).render d = (c.fragment left).render d ↔
        ¬ c.IsNullTest) ∧
      (c.IsNullTest → c.fragment left =
        if c.operator = .eq then left.isNull else left.isNotNull) ∧
      ∀ field, (Condition.all [c]).fragment field = c.fragment (ident field) ∧
        ∀ v, (Condition.is v).fragment field = Comparison.fragment ⟨.eq, v⟩ (ident field) ∧
          ((ident field).compare .eq v = (Condition.is v).fragment field ↔ v ≠ .null) := by
  refine ⟨compare_eq_iff c left, ?_, ?_, ?_⟩
  · intro d
    constructor
    · intro hsame hnull
      exact render_compare_ne hnull d left hsame
    · intro h
      rw [fragment_eq_compare h]
  · intro h
    obtain rfl | rfl := eq_of_isNullTest h <;> rfl
  · intro field
    refine ⟨Condition.fragment_all_singleton c field, fun v => ⟨Condition.fragment_is v field, ?_⟩⟩
    have hnull : (Comparison.mk .eq v).IsNullTest ↔ v = .null := by simp [IsNullTest]
    rw [Condition.fragment_is]
    exact (compare_eq_iff ⟨.eq, v⟩ (ident field)).trans (not_congr hnull)

/-- The sign of equality with the absent value, and the null test. -/
theorem Comparison.compare_null_ne_fragment :
    (ident "a").compare Operator.eq.token .null ≠ Comparison.fragment ⟨.eq, .null⟩ (ident "a") ∧
      ((ident "a").compare Operator.eq.token .null).render .sqlite = "\x22a\x22 = NULL" ∧
      (Comparison.fragment ⟨.eq, .null⟩ (ident "a")).render .sqlite = "\x22a\x22 IS NULL" := by
  decide

end Keyset
