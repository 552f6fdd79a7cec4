import Keyset.Query.Basic
import Keyset.Row

/-!
# The meaning of filters

A filter says of a row that it holds, that it does not, or neither: a comparison with the absent
value is *unknown*, and a row is selected iff the filter holds of it.

A `Reading` is what a store adds to a filter: the order in which it compares the values of each
column, and what it makes of raw text.  `Reading.truth` is the truth value of a filter on a row
under a reading.

* `Truth.all_eq_yes_iff` : a conjunction holds iff each of its members does.
* `Reading.selects_push` : one more comparison selects the rows that satisfy it as well.
-/

namespace Keyset

/-- The truth value of a condition on a row. -/
inductive Truth
  | yes
  | no
  /-- The condition compares with an absent value. -/
  | unknown
deriving DecidableEq

namespace Truth

/-- The truth value of a test that is never unknown. -/
def ofBool (b : Bool) : Truth := if b then yes else no

/-- The conjunction of two conditions. -/
def and : Truth → Truth → Truth
  | no, _ | _, no => no
  | yes, yes => yes
  | _, _ => unknown

/-- The conjunction of a list of conditions; the empty one holds. -/
def all (ts : List Truth) : Truth := ts.foldr and yes

@[simp] theorem ofBool_eq_yes_iff {b : Bool} : ofBool b = yes ↔ b = true := by
  cases b <;> simp [ofBool]

theorem and_eq_yes_iff {a b : Truth} : a.and b = yes ↔ a = yes ∧ b = yes := by
  cases a <;> cases b <;> simp [and]

theorem all_eq_yes_iff {ts : List Truth} : all ts = yes ↔ ∀ t ∈ ts, t = yes := by
  induction ts with
  | nil => simp [all]
  | cons t ts ih =>
    have h : all (t :: ts) = t.and (all ts) := rfl
    rw [h, and_eq_yes_iff, ih, List.forall_mem_cons]

end Truth

namespace Operator

/-- The operator accepts two values whose comparison has the given outcome. -/
def accepts : Operator → Ordering → Bool
  | eq, o => o.isEq
  | ne, o => o.isNe
  | lt, o => o.isLT
  | gt, o => o.isGT
  | le, o => o.isLE
  | ge, o => o.isGE

end Operator

namespace Value

/-- The literal of the value is that of the absent value. -/
def isWrittenNull : Value → Bool
  | null => true
  | real x => !x.isFinite
  | _ => false

theorem spelling_of_isWrittenNull {v : Value} (h : v.isWrittenNull = true) :
    v.spelling = null.spelling := by
  cases v with
  | null => rfl
  | real x =>
    have hx : x.isFinite = false := by simpa [isWrittenNull] using h
    simp [spelling, hx]
  | bool b => simp [isWrittenNull] at h
  | integer n => simp [isWrittenNull] at h
  | text s => simp [isWrittenNull] at h
  | timestamp t => simp [isWrittenNull] at h

theorem isNull_eq_false_of_isWrittenNull {v : Value} (h : v.isWrittenNull = false) :
    v.isNull = false := by
  cases v <;> simp_all [isWrittenNull, isNull]

end Value

namespace Row

/-- The value of a column; a column that the row does not have is absent. -/
def value (row : Row) (column : String) : Value := (row.get? column).getD .null

theorem value_of_get? {row : Row} {column : String} {v : Value} (h : row.get? column = some v) :
    row.value column = v := by
  simp [value, h]

end Row

/-- How a store reads filters. -/
structure Reading where
  /-- The order of the values of a column. It also says where the absent value is sorted. -/
  cmp : String → Value → Value → Ordering
  /-- The truth value of raw text on a row. -/
  raw : String → Row → Truth
  /-- The order of each column is a total preorder. -/
  lawful : ∀ column, Std.TransCmp (cmp column)

attribute [instance] Reading.lawful

namespace Reading

/-- The reading that tells integers apart, and nothing else; raw text is unknown. -/
def ofIntegers : Reading where
  cmp _ := compareOn fun v => (v.toInt64?.map Int64.toInt).getD 0
  raw _ _ := .unknown
  lawful _ := inferInstance

variable (R : Reading) (column : String)

/-- The outcome of comparing a stored value with an operand, if neither is absent. -/
def outcome? (v operand : Value) : Option Ordering :=
  if v.isNull || operand.isWrittenNull then none else some (R.cmp column v operand)

/-- The truth value of a comparison on the value of a column. Equality with the absent value, and
the lack of it, are tests for absence. -/
def comparison (c : Comparison) (v : Value) : Truth :=
  match c.operator, c.operand with
  | .eq, .null => .ofBool v.isNull
  | .ne, .null => .ofBool !v.isNull
  | op, operand => (R.outcome? column v operand).elim .unknown fun o => .ofBool (op.accepts o)

/-- The truth value of a condition on the value of its column. -/
def condition (c : Condition) (v : Value) : Truth :=
  match c with
  | .is w => R.comparison column ⟨.eq, w⟩ v
  | .all cs => .all (cs.map fun c => R.comparison column c v)

/-- The truth value of a filter on a row. -/
def truth (p : Predicate) (row : Row) : Truth :=
  (p.raw.elim .yes fun text => R.raw text row).and
    (.all (p.fields.map fun (field, c) => R.condition field c (row.value field)))

/-- The filter holds of the row. -/
def selects (p : Predicate) (row : Row) : Bool := R.truth p row = .yes

variable {R column}

/-- A comparison other than the tests for absence holds iff the outcome is accepted. -/
theorem comparison_eq_yes_iff {op : Operator} {operand v : Value} (he : op ≠ .eq) (hn : op ≠ .ne) :
    R.comparison column ⟨op, operand⟩ v = .yes ↔
      (R.outcome? column v operand).any op.accepts = true := by
  have h : R.comparison column ⟨op, operand⟩ v =
      (R.outcome? column v operand).elim .unknown fun o => .ofBool (op.accepts o) := by
    cases op with
    | eq => exact absurd rfl he
    | ne => exact absurd rfl hn
    | lt | gt | le | ge => rfl
  rw [h]
  cases R.outcome? column v operand <;> simp

/-- **A pushed comparison narrows the selection to the rows that satisfy it.** -/
theorem selects_push {p : Predicate} {field : String} {c : Comparison} {row : Row} :
    R.selects (p.push field c) row = true ↔
      R.selects p row = true ∧ R.comparison field c (row.value field) = .yes := by
  have hc : R.condition field (.all [c]) (row.value field) = .yes ↔
      R.comparison field c (row.value field) = .yes := by
    simp [condition, Truth.all_eq_yes_iff]
  simp only [selects, truth, Predicate.push, decide_eq_true_eq, Truth.and_eq_yes_iff,
    Truth.all_eq_yes_iff, List.map_append, List.forall_mem_append, List.map_cons, List.map_nil,
    List.forall_mem_singleton, hc, and_assoc]

end Reading

end Keyset
