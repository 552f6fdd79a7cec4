import Keyset.Proofs.Json.Request

/-!
# Operators without a known name

A filter may be right up to an operator with a name that is not known (`Json.FirstUnknown`).  It is
refused, and so is every request with this filter that is right otherwise, with one and the same
fault.  The operand is looked at before the name, so the fault tells of the operator if the operand
is a scalar, and of the operand if it is a list or an object (`Json.operatorFault`).

* `Json.faulty_of_firstUnknown` : the filter as a part with a fault.
* `Json.unknown_operator_faults` : **filters, queries, pages and joins.**
-/

namespace Keyset

namespace Json

/-- In this filter an operator of no known name comes after conditions, and within its field after
comparisons. -/
inductive FirstUnknown (field name : String) (operand : Json) : Json → Prop
  | intro {before after operators others : List (String × Json)}
    (conditions : ∀ m ∈ before, m.2.IsCondition) (comparisons : ∀ m ∈ operators, IsComparison m)
    (unknown : ∀ op : Operator, name ≠ op.keyword) :
    FirstUnknown field name operand
      (object (before ++ (field, object (operators ++ (name, operand) :: others)) :: after))

/-- The fault of an operator of no known name with its operand. -/
def operatorFault (field name : String) (operand : Json) : Fault :=
  if operand.IsScalar then .unknownOperator field name else .misfit (.notLiteral field)

variable {field name : String} {operand filter : Json} {members : List (String × Json)}

theorem comparisonFault_operatorFault (unknown : ∀ op : Operator, name ≠ op.keyword) :
    ComparisonFault field (name, operand) (operatorFault field name operand) := by
  unfold operatorFault
  split_ifs with hscalar
  · exact .operator hscalar unknown
  · exact .operand hscalar

theorem filterFault_of_firstUnknown (h : FirstUnknown field name operand filter) :
    FilterFault filter (operatorFault field name operand) := by
  obtain @⟨before, after, operators, others, conditions, comparisons, unknown⟩ := h
  refine .field ⟨before, _, after, rfl, conditions, ?_⟩
  exact .comparison ⟨operators, _, others, rfl, comparisons, comparisonFault_operatorFault unknown⟩

theorem faulty_of_firstUnknown (h : FirstUnknown field name operand filter)
    (given : either? "where" "predicate" members = some filter) :
    Part.Faulty members ⟨either? "where" "predicate", IsFilter, FilterFault⟩
      (operatorFault field name operand) :=
  ⟨filter, given, filterFault_of_firstUnknown h⟩

/-! ### Requests that are right otherwise -/

/-- The members with other names than these. -/
def without (names : List String) (members : List (String × Json)) : List (String × Json) :=
  members.filter fun m => m.1 ∉ names

theorem lookup_without {names : List String} (hname : name ∉ names)
    (members : List (String × Json)) :
    (without names members).lookup name = members.lookup name :=
  lookup_filter (p := (· ∉ names)) (decide_eq_true hname) members

theorem fits_of_without {names : List String} {parts before : List Part}
    (fits : ∀ p ∈ parts, p.Fits (without names members)) (hsub : before ⊆ parts)
    (found : ∀ p ∈ before, p.find (without names members) = p.find members) :
    ∀ p ∈ before, p.Fits members := by
  intro p hp j hj
  rw [← found p hp] at hj
  exact fits p (hsub hp) j hj

theorem query_of_firstUnknown (h : FirstUnknown field name operand filter)
    (given : either? "where" "predicate" members = some filter)
    (others : ∃ q, Query.ofJson (object (without ["where", "predicate"] members)) = .ok q) :
    Query.ofJson (object members) = .error (operatorFault field name operand) := by
  have hbefore : ∀ p ∈ queryParts.take 1, p.Fits members := by
    refine fits_of_without ((reads_query_object _).fits_iff.1 others) (List.take_subset 1 _) ?_
    simp [queryParts, either?, lookup_without]
  exact (reads_query_object members).error_iff _ |>.2
    ⟨_, _, queryParts.drop 2, rfl, hbefore, faulty_of_firstUnknown h given⟩

theorem page_of_firstUnknown (h : FirstUnknown field name operand filter)
    (given : either? "where" "predicate" members = some filter)
    (others : ∃ r, PageRequest.ofJson (object (without ["where", "predicate"] members)) = .ok r) :
    PageRequest.ofJson (object members) = .error (operatorFault field name operand) := by
  have hbefore : ∀ p ∈ pageParts.take 3, p.Fits members := by
    refine fits_of_without ((reads_page_object _).fits_iff.1 others) (List.take_subset 3 _) ?_
    simp [pageParts, cursor?, either?, lookup_without]
  exact (reads_page_object members).error_iff _ |>.2
    ⟨_, _, pageParts.drop 4, rfl, hbefore, faulty_of_firstUnknown h given⟩

theorem join_of_query_error {options : Json} {e : Fault}
    (given : members.lookup "options" = some options) (fault : Query.ofJson options = .error e)
    (others : ∃ r, JoinRequest.ofJson (object (without ["options"] members)) = .ok r) :
    JoinRequest.ofJson (object members) = .error e := by
  have hbefore : ∀ p ∈ joinParts.take 2, p.Fits members := by
    refine fits_of_without ((reads_join_object _).fits_iff.1 others) (List.take_subset 2 _) ?_
    simp [joinParts, lookup_without]
  exact (reads_join_object members).error_iff _ |>.2
    ⟨_, _, [], rfl, hbefore, options, given, ((reads_query options).error_iff e).1 fault⟩

/-- **An operator of no known name is refused**, in a filter and in every request with this filter
and no other fault.  The fault names the field, and the operator if the operand is a scalar. -/
theorem unknown_operator_faults (h : FirstUnknown field name operand filter) :
    Predicate.ofJson filter = .error (operatorFault field name operand) ∧
      ∀ members, either? "where" "predicate" members = some filter →
        ((∃ q, Query.ofJson (object (without ["where", "predicate"] members)) = .ok q) →
          Query.ofJson (object members) = .error (operatorFault field name operand) ∧
            ∀ outer, outer.lookup "options" = some (object members) →
              (∃ r, JoinRequest.ofJson (object (without ["options"] outer)) = .ok r) →
              JoinRequest.ofJson (object outer) = .error (operatorFault field name operand)) ∧
        ((∃ r, PageRequest.ofJson (object (without ["where", "predicate"] members)) = .ok r) →
          PageRequest.ofJson (object members) = .error (operatorFault field name operand)) := by
  refine ⟨(reads_filter filter).error_iff _ |>.2 (filterFault_of_firstUnknown h), ?_⟩
  intro members given
  refine ⟨fun others => ?_, page_of_firstUnknown h given⟩
  have hquery := query_of_firstUnknown h given others
  exact ⟨hquery, fun outer houter => join_of_query_error houter hquery⟩

/-- An operator of no known name after a condition and a comparison, in a filter and in a join. -/
theorem unknown_operator_faults_between :
    let filter := object
      [("id", .integer 1), ("price", object [("$gt", .integer 1), ("$between", .integer 2)])]
    Predicate.ofJson filter = .error (.unknownOperator "price" "$between") ∧
      JoinRequest.ofJson (object
          [("table", text "users"),
            ("options", object [("limit", .integer 2), ("where", filter)])]) =
        .error (.unknownOperator "price" "$between") := by
  intro filter
  have hconditions : ∀ m ∈ [("id", integer 1)], m.2.IsCondition :=
    List.forall_mem_singleton.2 (.scalar trivial)
  have hcomparisons : ∀ m ∈ [("$gt", integer 1)], IsComparison m :=
    List.forall_mem_singleton.2 ⟨trivial, .gt, rfl⟩
  have h : FirstUnknown "price" "$between" (.integer 2) filter :=
    @FirstUnknown.intro _ _ _ _ [] _ [] hconditions hcomparisons
      (Operator.ne_keyword_of_ofName? rfl)
  obtain ⟨hfilter, hrequests⟩ := unknown_operator_faults h
  obtain ⟨-, hjoin⟩ := (hrequests [("limit", .integer 2), ("where", filter)] rfl).1 ⟨_, rfl⟩
  exact ⟨hfilter, hjoin _ rfl ⟨_, rfl⟩⟩

/-- The fault of an operator of no known name with a list tells of the list. -/
theorem unknown_operator_hidden_by_list :
    let operand := array [.integer 1, .integer 2]
    let filter := object [("price", object [("$in", operand)])]
    FirstUnknown "price" "$in" operand filter ∧
      Predicate.ofJson filter = .error (.misfit (.notLiteral "price")) ∧
      Predicate.ofJson filter ≠ .error (.unknownOperator "price" "$in") := by
  intro operand filter
  have hread : Predicate.ofJson filter = .error (.misfit (.notLiteral "price")) := rfl
  refine ⟨@FirstUnknown.intro _ _ _ [] [] [] [] nofun nofun (Operator.ne_keyword_of_ofName? rfl),
    hread, ?_⟩
  rw [hread]
  nofun

end Json

end Keyset
