import Keyset.Json.Query
import Keyset.Proofs.Json.Reads

/-!
# Queries are read from their documented shape

What a query in JSON may look like (`Json.IsQuery`), what it then asks for (`Json.Requests`), and
which fault it has otherwise (`Json.QueryFault`), each said part by part beside the one of the parts
it is made of.  A list in the query has one item for every member of its object, in the order of the
document, and the fault is that of the first member that has one.

* `Json.reads_condition`, `Json.reads_filter`, `Json.reads_query` : the readers do as described.
* `Query.ofJson_congr` : a query depends on the members with the documented names alone, and not on
  their order.
* `Query.ofJson_documented` : **all of this about every document.**
-/

namespace Keyset

namespace Operator

/-- The name of an operator in JSON. -/
def keyword : Operator → String
  | eq => "$eq"
  | ne => "$ne"
  | gt => "$gt"
  | ge => "$gte"
  | lt => "$lt"
  | le => "$lte"

theorem ofName?_eq_some_iff {name : String} {op : Operator} :
    ofName? name = some op ↔ name = op.keyword := by
  constructor
  · intro h
    unfold ofName? at h
    split_ifs at h with h₁ h₂ h₃ h₄ h₅ h₆ <;> cases h <;> assumption
  · rintro rfl
    cases op <;> rfl

theorem keyword_injective : Function.Injective keyword := by
  intro op op' h
  have hop := ofName?_eq_some_iff.2 h
  rw [ofName?_eq_some_iff.2 rfl] at hop
  exact Option.some.inj hop

theorem ne_keyword_of_ofName? {name : String} (h : ofName? name = none) (op : Operator) :
    name ≠ op.keyword := by
  rintro rfl
  rw [ofName?_eq_some_iff.2 rfl] at h
  cases h

end Operator

namespace Json

/-! ### Conditions -/

/-- An operator with a scalar. -/
def IsComparison (m : String × Json) : Prop := m.2.IsScalar ∧ ∃ op : Operator, m.1 = op.keyword

/-- The comparison that an operator with a scalar stands for. -/
def Compares (m : String × Json) (c : Comparison) : Prop :=
  m.1 = c.operator.keyword ∧ Stands m.2 c.operand

/-- The fault of an operator with its operand.  The operand is looked at first. -/
inductive ComparisonFault (field : String) (m : String × Json) : Fault → Prop
  | operand (noScalar : ¬ m.2.IsScalar) : ComparisonFault field m (.misfit (.notLiteral field))
  | operator (scalar : m.2.IsScalar) (unknown : ∀ op : Operator, m.1 ≠ op.keyword) :
    ComparisonFault field m (.unknownOperator field m.1)

/-- A scalar, or an object of one operator at least. -/
inductive IsCondition : Json → Prop
  | scalar {j : Json} (scalar : j.IsScalar) : IsCondition j
  | operators {operators : List (String × Json)} (nonempty : operators ≠ [])
    (comparisons : ∀ m ∈ operators, IsComparison m) : IsCondition (object operators)

/-- The condition that a value stands for. -/
inductive Imposes : Json → Condition → Prop
  | is {j : Json} {v : Value} (value : Stands j v) : Imposes j (.is v)
  | all {operators : List (String × Json)} {comparisons : List Comparison}
    (nonempty : operators ≠ []) (each : List.Forall₂ Compares operators comparisons) :
    Imposes (object operators) (.all comparisons)

/-- The fault of the value given for a field. -/
inductive ConditionFault (field : String) : Json → Fault → Prop
  | list (items : List Json) : ConditionFault field (array items) (.misfit (.notLiteral field))
  | noOperators : ConditionFault field (object []) (.misfit (.noOperators field))
  | comparison {operators : List (String × Json)} {e : Fault}
    (first : FirstFault IsComparison (ComparisonFault field) operators e) :
    ConditionFault field (object operators) e

theorem reads_operator (field name : String) (v : Value) :
    Reads (match Operator.ofName? name with
        | some op => .ok (⟨op, v⟩ : Comparison)
        | none => .error (.unknownOperator field name))
      (∃ op : Operator, name = op.keyword) (fun c => name = c.operator.keyword ∧ c.operand = v)
      (fun e => (∀ op : Operator, name ≠ op.keyword) ∧ e = .unknownOperator field name) := by
  simp only [ne_eq, ← Operator.ofName?_eq_some_iff]
  cases Operator.ofName? name with
  | none => exact (Reads.error _).congr (by simp) (by simp) (by simp)
  | some op =>
    refine (Reads.ok _).congr (by simp) (fun c => ?_) (by simp)
    obtain ⟨op', v'⟩ := c
    simp [eq_comm]

theorem reads_comparison (field : String) (m : String × Json) :
    Reads (Comparison.ofJson field m.1 m.2) (IsComparison m) (Compares m)
      (ComparisonFault field m) := by
  refine ((reads_asValue field m.2).bind (reads_operator field m.1)).congr Iff.rfl (fun c => ?_)
    fun e => ?_
  · constructor
    · rintro ⟨v, hv, hname, rfl⟩
      exact ⟨hname, hv⟩
    · rintro ⟨hname, hv⟩
      exact ⟨c.operand, hv, hname, rfl⟩
  · constructor
    · rintro (⟨hscalar, rfl⟩ | ⟨hscalar, hunknown, rfl⟩)
      · exact .operand hscalar
      · exact .operator hscalar hunknown
    · rintro (hscalar | ⟨hscalar, hunknown⟩)
      · exact .inl ⟨hscalar, rfl⟩
      · exact .inr ⟨hscalar, hunknown, rfl⟩

theorem isObject_object (members : List (String × Json)) : (object members).IsObject :=
  ⟨members, rfl⟩

theorem reads_condition_of_not_isObject (field : String) {j : Json} (h : ¬ j.IsObject) :
    Reads (Condition.ofJson field j) j.IsCondition (Imposes j) (ConditionFault field j) := by
  have hread : Condition.ofJson field j = (j.asValue field).map .is := by
    cases j with
    | object members => exact absurd (isObject_object members) h
    | _ => rfl
  rw [hread]
  refine ((reads_asValue field j).map Condition.is).congr ⟨.scalar, ?_⟩ (fun c => ⟨?_, ?_⟩)
    fun e => ⟨?_, ?_⟩
  · rintro (hscalar | -)
    · exact hscalar
    · exact absurd (isObject_object _) h
  · rintro ⟨v, hv, rfl⟩
    exact .is hv
  · rintro (hv | -)
    · exact ⟨_, hv, rfl⟩
    · exact absurd (isObject_object _) h
  · rintro ⟨hscalar, rfl⟩
    cases j with
    | array items => exact .list items
    | object members => exact absurd (isObject_object members) h
    | _ => exact absurd trivial hscalar
  · rintro (items | _ | _)
    · exact ⟨id, rfl⟩
    · exact absurd (isObject_object _) h
    · exact absurd (isObject_object _) h

theorem reads_condition_object (field : String) {operators : List (String × Json)}
    (hne : operators ≠ []) :
    Reads ((operators.mapM fun m => Comparison.ofJson field m.1 m.2).map .all)
      (object operators).IsCondition (Imposes (object operators))
      (ConditionFault field (object operators)) := by
  refine ((Reads.mapM (reads_comparison field) operators).map Condition.all).congr
    ⟨.operators hne, ?_⟩ (fun c => ⟨?_, ?_⟩) fun e => ⟨.comparison, ?_⟩
  · rintro (hscalar | ⟨-, h⟩)
    · exact hscalar.elim
    · exact h
  · rintro ⟨comparisons, h, rfl⟩
    exact .all hne h
  · rintro (hv | ⟨-, h⟩)
    · cases hv
    · exact ⟨_, h, rfl⟩
  · rintro (_ | _ | h)
    · exact absurd rfl hne
    · exact h

theorem reads_condition (field : String) (j : Json) :
    Reads (Condition.ofJson field j) j.IsCondition (Imposes j) (ConditionFault field j) := by
  cases j with
  | object operators =>
    cases operators with
    | nil =>
      refine (Reads.error _).congr (iff_of_false id ?_) (fun c => iff_of_false id ?_) fun e => ?_
      · rintro (hscalar | ⟨hne, -⟩)
        · exact hscalar
        · exact hne rfl
      · rintro (hv | ⟨hne, -⟩)
        · cases hv
        · exact hne rfl
      · constructor
        · rintro rfl
          exact .noOperators
        · rintro (_ | _ | h)
          · rfl
          · exact absurd h not_firstFault_nil
    | cons m operators => exact reads_condition_object field (List.cons_ne_nil m operators)
  | _ =>
    refine reads_condition_of_not_isObject field ?_
    rintro ⟨members, hj⟩
    cases hj

/-! ### Filters -/

/-- A raw expression, or an object of conditions. -/
inductive IsFilter : Json → Prop
  | raw (s : String) : IsFilter (text s)
  | fields {members : List (String × Json)} (conditions : ∀ m ∈ members, m.2.IsCondition) :
    IsFilter (object members)

/-- The filter that a value stands for. -/
inductive Filters : Json → Predicate → Prop
  | raw (s : String) : Filters (text s) { raw := some s }
  | fields {members : List (String × Json)} {fields : List (String × Condition)}
    (each : List.Forall₂ (fun m f => f.1 = m.1 ∧ Imposes m.2 f.2) members fields) :
    Filters (object members) { fields }

/-- The fault of a filter. -/
inductive FilterFault : Json → Fault → Prop
  | shape {j : Json} (noText : ∀ s, j ≠ text s) (noObject : ¬ j.IsObject) :
    FilterFault j (.misfit (.notObject "where"))
  | field {members : List (String × Json)} {e : Fault}
    (first : FirstFault (fun m => m.2.IsCondition) (fun m => ConditionFault m.1 m.2) members e) :
    FilterFault (object members) e

theorem reads_field (m : String × Json) :
    Reads ((Condition.ofJson m.1 m.2).map (m.1, ·)) m.2.IsCondition
      (fun f => f.1 = m.1 ∧ Imposes m.2 f.2) (ConditionFault m.1 m.2) := by
  refine ((reads_condition m.1 m.2).map (m.1, ·)).congr Iff.rfl (fun f => ?_) fun _ => Iff.rfl
  obtain ⟨name, c⟩ := f
  simp [and_comm]

theorem reads_filter (j : Json) :
    Reads (Predicate.ofJson j) j.IsFilter (Filters j) (FilterFault j) := by
  cases j with
  | text s =>
    refine (Reads.ok _).congr (iff_of_true trivial (.raw s)) (fun p => ?_)
      fun e => iff_of_false id ?_
    · constructor
      · rintro rfl
        exact .raw s
      · rintro ⟨-⟩
        rfl
    · rintro ⟨noText, -⟩
      exact noText s rfl
  | object members =>
    refine ((Reads.mapM reads_field members).map fun fields => ({ fields } : Predicate)).congr
      ⟨.fields, ?_⟩ (fun p => ?_) fun e => ⟨.field, ?_⟩
    · rintro (_ | h)
      exact h
    · constructor
      · rintro ⟨fields, h, rfl⟩
        exact .fields h
      · rintro (_ | h)
        exact ⟨_, h, rfl⟩
    · rintro (⟨-, noObject⟩ | h)
      · exact absurd (isObject_object members) noObject
      · exact h
  | _ =>
    refine (Reads.error _).congr (iff_of_false id nofun) (fun p => iff_of_false id nofun)
      fun e => ?_
    constructor
    · rintro rfl
      exact .shape nofun nofun
    · rintro ⟨-, -⟩
      rfl

/-! ### Queries -/

/-- A part of a request: where it is among the members, and which shape and faults it has. -/
structure Part where
  /-- The part among the members, if it is there. -/
  find : List (String × Json) → Option Json
  /-- The shape it has to have. -/
  shape : Json → Prop
  /-- The fault of what does not have the shape. -/
  fault : Json → Fault → Prop

/-- The part has its shape if it is there. -/
def Part.Fits (members : List (String × Json)) (p : Part) : Prop :=
  ∀ j ∈ p.find members, p.shape j

/-- The part is there and has a fault. -/
def Part.Faulty (members : List (String × Json)) (p : Part) (e : Fault) : Prop :=
  ∃ j ∈ p.find members, p.fault j e

/-- The parts of a query, in the order in which they are looked at. -/
def queryParts : List Part :=
  [⟨either? "columns" "projection", IsObject,
      fun j e => ¬ j.IsObject ∧ e = .misfit (.notObject "columns")⟩,
    ⟨either? "where" "predicate", IsFilter, FilterFault⟩,
    ⟨either? "order" "ordering", IsObject,
      fun j e => ¬ j.IsObject ∧ e = .misfit (.notObject "order")⟩,
    ⟨List.lookup "limit", IsCount, fun j e => ¬ j.IsCount ∧ e = .misfit (.notCount "limit")⟩,
    ⟨List.lookup "offset", IsCount, fun j e => ¬ j.IsCount ∧ e = .misfit (.notCount "offset")⟩]

/-- An object of flags, each of which stands for one thing or the other. -/
def Flags {α : Type} (meaning : Bool → α) (j : Json) (flags : List (String × α)) : Prop :=
  ∃ members, j = object members ∧ flags = members.map fun m => (m.1, meaning m.2.isTruthy)

/-- A count, which is there. -/
def Counts (j : Json) (n : Option UInt64) : Prop := ∃ k : UInt64, j = integer k.toNat ∧ n = some k

/-- The query that the members of an object stand for. -/
structure Requests (members : List (String × Json)) (q : Query) : Prop where
  /-- The columns with their flags. -/
  columns : Given (Flags id) [] (either? "columns" "projection" members) q.columns
  /-- The filter. -/
  filter : Given Filters {} (either? "where" "predicate" members) q.predicate
  /-- The columns to sort by. -/
  order : Given (Flags Direction.ofFlag) [] (either? "order" "ordering" members) q.ordering
  /-- The largest number of rows. -/
  limit : Given Counts none (members.lookup "limit") q.limit
  /-- The number of rows to skip. -/
  offset : Given Counts none (members.lookup "offset") q.offset

theorem reads_columns (j : Json) : Reads (Query.columnsOfJson j) j.IsObject (Flags id j)
    fun e => ¬ j.IsObject ∧ e = .misfit (.notObject "columns") :=
  (reads_asObject "columns" j).map _

theorem reads_ordering (j : Json) :
    Reads (Query.orderingOfJson j) j.IsObject (Flags Direction.ofFlag j)
      fun e => ¬ j.IsObject ∧ e = .misfit (.notObject "order") :=
  (reads_asObject "order" j).map _

theorem reads_count (what : String) (j : Json) :
    Reads ((j.asCount what).map some) j.IsCount (Counts j)
      fun e => ¬ j.IsCount ∧ e = .misfit (.notCount what) :=
  (reads_asCount what j).map some

/-- **A query is read part by part**, up to the first fault. -/
theorem reads_query_object (members : List (String × Json)) :
    Reads (Query.ofJson (object members)) (∀ p ∈ queryParts, p.Fits members) (Requests members)
      (FirstFault (Part.Fits members) (Part.Faulty members) queryParts) := by
  have hparts :=
    (Reads.readOr reads_columns [] (either? "columns" "projection" members)).bind fun columns =>
    (Reads.readOr reads_filter {} (either? "where" "predicate" members)).bind fun predicate =>
    (Reads.readOr reads_ordering [] (either? "order" "ordering" members)).bind fun ordering =>
    (Reads.readOr (reads_count "limit") none (members.lookup "limit")).bind fun limit =>
    (Reads.readOr (reads_count "offset") none (members.lookup "offset")).bind fun offset =>
    Reads.ok ({ columns, predicate, ordering, limit, offset } : Query)
  refine hparts.congr ?_ (fun q => ⟨?_, ?_⟩) fun e => ?_
  · simp [queryParts, Part.Fits]
  · rintro ⟨columns, hc, predicate, hp, ordering, ho, limit, hl, offset, hoff, rfl⟩
    exact ⟨hc, hp, ho, hl, hoff⟩
  · intro h
    exact ⟨_, h.columns, _, h.filter, _, h.order, _, h.limit, _, h.offset, rfl⟩
  · simp [queryParts, firstFault_cons_iff, not_firstFault_nil, Part.Fits, Part.Faulty]

theorem reads_query (j : Json) : Reads (Query.ofJson j)
    (∃ members, j = object members ∧ ∀ p ∈ queryParts, p.Fits members)
    (fun q => ∃ members, j = object members ∧ Requests members q)
    (fun e => (¬ j.IsObject ∧ e = .misfit (.notObject "options")) ∨
      ∃ members, j = object members ∧
        FirstFault (Part.Fits members) (Part.Faulty members) queryParts e) := by
  cases j with
  | object members =>
    refine (reads_query_object members).congr ?_ (fun q => ?_) fun e => ?_
    · simp
    · simp
    · simp [isObject_object]
  | _ => exact (Reads.error _).congr (by simp) (by simp) (by simp [IsObject])

/-- An object with the parts of a query. -/
def IsQuery (j : Json) : Prop := ∃ members, j = object members ∧ ∀ p ∈ queryParts, p.Fits members

/-- The fault of a query. -/
def QueryFault (j : Json) (e : Fault) : Prop :=
  (¬ j.IsObject ∧ e = .misfit (.notObject "options")) ∨
    ∃ members, j = object members ∧
      FirstFault (Part.Fits members) (Part.Faulty members) queryParts e

/-! ### Members that count -/

variable {members members' : List (String × Json)} {name : String}

theorem lookup_eq_some_iff_mem (nodup : (members.map (·.1)).Nodup) {j : Json} :
    members.lookup name = some j ↔ (name, j) ∈ members := by
  induction members with
  | nil => simp
  | cons m members ih =>
    obtain ⟨other, v⟩ := m
    rw [List.map_cons, List.nodup_cons] at nodup
    obtain ⟨hother, nodup⟩ := nodup
    rw [List.lookup_cons, List.mem_cons, ← ih nodup]
    by_cases hname : name = other
    · subst hname
      have habsent : members.lookup name ≠ some j := fun h =>
        hother (List.mem_map.2 ⟨_, (ih nodup).1 h, rfl⟩)
      simp [habsent, eq_comm]
    · have hne : (name == other) = false := beq_eq_false_iff_ne.2 hname
      simp [hne, hname]

theorem lookup_filter {p : String → Bool} (hname : p name = true)
    (members : List (String × Json)) :
    (members.filter fun m => p m.1).lookup name = members.lookup name := by
  induction members with
  | nil => rfl
  | cons m members ih =>
    obtain ⟨other, v⟩ := m
    rw [List.filter_cons]
    split_ifs with hp
    · rw [List.lookup_cons, List.lookup_cons, ih]
    · have hne : (name == other) = false := by
        rw [beq_eq_false_iff_ne]
        rintro rfl
        exact hp hname
      rw [List.lookup_cons, hne, ih]

/-- A member with one of certain names is found by it, whatever the order of these is and whatever
other members there are. -/
theorem lookup_eq_of_perm_filter {p : String → Bool} (nodup : (members.map (·.1)).Nodup)
    (nodup' : (members'.map (·.1)).Nodup)
    (perm : (members.filter fun m => p m.1).Perm (members'.filter fun m => p m.1))
    (hname : p name = true) : members.lookup name = members'.lookup name := by
  have hsub (members : List (String × Json)) (nodup : (members.map (·.1)).Nodup) :
      ((members.filter fun m => p m.1).map (·.1)).Nodup :=
    nodup.sublist (List.filter_sublist.map _)
  rw [← lookup_filter hname members, ← lookup_filter hname members']
  refine Option.ext fun j => ?_
  rw [lookup_eq_some_iff_mem (hsub _ nodup), lookup_eq_some_iff_mem (hsub _ nodup'), perm.mem_iff]

end Json

namespace Query

/-- The names of the members that a query may have. -/
def memberNames : List String :=
  ["columns", "projection", "where", "predicate", "order", "ordering", "limit", "offset"]

/-- **A query depends on the members with these names alone.** -/
theorem ofJson_congr {members members' : List (String × Json)}
    (h : ∀ name ∈ memberNames, members.lookup name = members'.lookup name) :
    ofJson (.object members) = ofJson (.object members') := by
  simp only [memberNames, List.forall_mem_cons] at h
  obtain ⟨hcolumns, hprojection, hwhere, hpredicate, horder, hordering, hlimit, hoffset, -⟩ := h
  simp only [ofJson, Json.asObject, Json.either?, hcolumns, hprojection, hwhere, hpredicate, horder,
    hordering, hlimit, hoffset, Bind.bind, Except.bind]

/-- **Queries are read from their documented shape.**  A document is taken iff it is an object whose
parts fit; the query has what the parts ask for, item by item; else the fault is that of the first
part that has one.  Neither the order of the members counts nor members with other names. -/
theorem ofJson_documented (j : Json) :
    ((∃ q, ofJson j = .ok q) ↔
      ∃ members, j = .object members ∧ ∀ p ∈ Json.queryParts, p.Fits members) ∧
    (∀ q, ofJson j = .ok q ↔ ∃ members, j = .object members ∧ Json.Requests members q) ∧
    (∀ e, ofJson j = .error e ↔ (¬ j.IsObject ∧ e = .misfit (.notObject "options")) ∨
      ∃ members, j = .object members ∧
        Json.FirstFault (Json.Part.Fits members) (Json.Part.Faulty members) Json.queryParts e) ∧
    ∀ members members', j = .object members → (members.map (·.1)).Nodup →
      (members'.map (·.1)).Nodup →
      (members.filter fun m => m.1 ∈ memberNames).Perm
        (members'.filter fun m => m.1 ∈ memberNames) →
      ofJson j = ofJson (.object members') := by
  have hreads := Json.reads_query j
  refine ⟨hreads.fits_iff, hreads.ok_iff, hreads.error_iff, ?_⟩
  rintro members members' rfl nodup nodup' perm
  refine ofJson_congr fun name hname => ?_
  exact Json.lookup_eq_of_perm_filter (p := (· ∈ memberNames)) nodup nodup' perm
    (decide_eq_true hname)

/-- Of the two members that have a fault the one that is looked at first counts, wherever it
stands. -/
theorem ofJson_documented_shuffled :
    ofJson (.object
        [("limit", .null), ("note", .text "x"), ("where", .object [("id", .array [])])]) =
      ofJson (.object [("where", .object [("id", .array [])]), ("limit", .null)]) ∧
    ofJson (.object [("where", .object [("id", .array [])]), ("limit", .null)]) =
      .error (.misfit (.notLiteral "id")) :=
  ⟨(ofJson_documented _).2.2.2 _ _ rfl (by decide) (by decide) (List.Perm.swap _ _ _), rfl⟩

end Query

end Keyset
