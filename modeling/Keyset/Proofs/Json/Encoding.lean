import Keyset.Proofs.Json.Request
import Keyset.Proofs.Walk.CursorText

/-!
# Queries written as JSON

A query is written as an object with one member for each part that asks for something, and so is a
request for a join.  An object keeps each name once, so a list is written as it is if its names are
distinct (`Json.ofMembers_map`).  `Query.Expressible` says which queries JSON has the means for.

* `Json.stands_toJson`, `Json.imposes_toJson`, `Json.filters_toJson` : what is written stands for
  what it was written from.
* `Json.holds_of_perm` : members with distinct names are found, whatever their order is.
* `Query.json_keeps_query` : **queries and joins are read as they were written**, and so
  calls with them ask for the same statements.
-/

namespace Keyset

namespace Json

/-! ### Objects -/

/-- The object with these members set one after another. -/
def ofMembers (members : List (String × Json)) : Json :=
  object (members.foldl (fun before m => put m.1 m.2 before) [])

theorem foldl_put {before members : List (String × Json)}
    (distinct : ((before ++ members).map (·.1)).Nodup) :
    members.foldl (fun before m => put m.1 m.2 before) before = before ++ members := by
  induction members generalizing before with
  | nil => rw [List.foldl_nil, List.append_nil]
  | cons m members ih =>
    have hm : m.1 ∉ before.map (·.1) := by
      rw [List.map_append, List.nodup_append] at distinct
      exact fun h => distinct.2.2 _ h _ (List.mem_map_of_mem List.mem_cons_self) rfl
    rw [List.foldl_cons, put_of_not_mem hm, ih (by simpa using distinct), List.append_assoc,
      List.singleton_append]

theorem ofMembers_map {α : Type} {name : α → String} {write : α → Json} {items : List α}
    (distinct : (items.map name).Nodup) :
    ofMembers (items.map fun a => (name a, write a)) =
      object (items.map fun a => (name a, write a)) := by
  refine congrArg object (foldl_put ?_)
  rw [List.nil_append, List.map_map]
  exact distinct

/-- The members that have a value. -/
def present (members : List (String × Option Json)) : List (String × Json) :=
  members.filterMap fun m => m.2.map (m.1, ·)

section

variable {parts : List (String × Option Json)} {members : List (String × Json)} {name : String}

theorem mem_present_iff {j : Json} : (name, j) ∈ present parts ↔ (name, some j) ∈ parts := by
  simp [present]

theorem nodup_present (distinct : (parts.map (·.1)).Nodup) :
    ((present parts).map (·.1)).Nodup := by
  refine distinct.sublist ?_
  induction parts with
  | nil => exact .slnil
  | cons m parts ih =>
    have ih := ih (List.nodup_cons.1 distinct).2
    obtain ⟨name, v⟩ := m
    cases v with
    | none => exact ih.cons name
    | some j => exact ih.cons_cons name

/-- The members are found by the names of the parts, those with a value, and no others are. -/
structure Holds (members : List (String × Json)) (parts : List (String × Option Json)) : Prop where
  /-- The value of a part is found, if it has one. -/
  found : ∀ m ∈ parts, members.lookup m.1 = m.2
  /-- Nothing else is found. -/
  absent : ∀ name ∉ parts.map (·.1), members.lookup name = none

/-- **Members with distinct names are found**, whatever their order is. -/
theorem holds_of_perm (distinct : (parts.map (·.1)).Nodup) (perm : members.Perm (present parts)) :
    Holds members parts := by
  have hmem {name : String} {j : Json} :
      members.lookup name = some j ↔ (name, some j) ∈ parts := by
    rw [lookup_eq_some_iff_mem ((perm.map _).nodup_iff.2 (nodup_present distinct)), perm.mem_iff,
      mem_present_iff]
  refine ⟨?_, ?_⟩
  · rintro ⟨name, v⟩ hm
    refine Option.ext fun j => ?_
    rw [hmem]
    constructor
    · intro hj
      exact congrArg Prod.snd (List.inj_on_of_nodup_map distinct hm hj rfl)
    · rintro rfl
      exact hm
  · intro name hname
    rw [Option.eq_none_iff_forall_ne_some]
    intro j hj
    exact hname (List.mem_map_of_mem (hmem.1 hj))

end

theorem given_ite {α : Type} {content : Json → α → Prop} {absent a : α} {empty : Bool} {j : Json}
    (hempty : empty = true → a = absent) (hj : content j a) :
    Given content absent (if empty then none else some j) a := by
  cases empty with
  | true => exact hempty rfl
  | false => exact hj

theorem given_map {α : Type} {content : Json → Option α → Prop} {write : α → Json} {x : Option α}
    (h : ∀ a ∈ x, content (write a) (some a)) : Given content none (x.map write) x := by
  cases x with
  | none => rfl
  | some a => exact h a rfl

end Json

open Json

/-! ### Values -/

namespace Value

/-- The value as a scalar.  There are no timestamps in JSON, and no numbers that are not finite. -/
def toJson : Value → Json
  | null => .null
  | bool b => .bool b
  | integer n => .integer n.toInt
  | real x => if x.isFinite then .real x else .null
  | text s => .text s
  | timestamp t => .text (String.ofList t.text)

/-- There is a scalar for the value. -/
def Expressible : Value → Prop
  | real x => x.isFinite = true
  | timestamp _ => False
  | _ => True

end Value

theorem Json.stands_toJson {v : Value} (h : v.Expressible) : Stands v.toJson v := by
  cases v with
  | null => exact .null
  | bool b => exact .bool b
  | integer n => exact .integer n
  | real x =>
    have hwritten : Value.toJson (.real x) = .real x := if_pos h
    rw [hwritten]
    exact .real x
  | text s => exact .text s
  | timestamp t => exact h.elim

/-! ### Filters -/

namespace Condition

/-- The condition as a scalar, or as an object of operators. -/
def toJson : Condition → Json
  | is v => v.toJson
  | all cs => ofMembers (cs.map fun c => (c.operator.keyword, c.operand.toJson))

/-- There are comparisons, no two with one operator. -/
def Expressible : Condition → Prop
  | is v => v.Expressible
  | all cs => cs ≠ [] ∧ (cs.map (·.operator)).Nodup ∧ ∀ c ∈ cs, c.operand.Expressible

end Condition

theorem Json.imposes_toJson {c : Condition} (h : c.Expressible) : Imposes c.toJson c := by
  cases c with
  | is v => exact .is (stands_toJson h)
  | all cs =>
    obtain ⟨hne, hdistinct, hoperands⟩ := h
    have hnames : (cs.map fun c => c.operator.keyword).Nodup := by
      have hmap := hdistinct.map Operator.keyword_injective
      rwa [List.map_map] at hmap
    rw [Condition.toJson, ofMembers_map hnames]
    refine .all (by simpa using hne) ?_
    rw [List.forall₂_map_left_iff, List.forall₂_same]
    exact fun c hc => ⟨rfl, stands_toJson (hoperands c hc)⟩

namespace Predicate

/-- The filter as a raw expression, or as an object of conditions. -/
def toJson (p : Predicate) : Json :=
  match p.raw with
  | some raw => .text raw
  | none => ofMembers (p.fields.map fun f => (f.1, f.2.toJson))

/-- The filter has a raw expression or conditions but not both, and one condition for a field. -/
structure Expressible (p : Predicate) : Prop where
  pure : p.raw = none ∨ p.fields = []
  distinct : (p.fields.map (·.1)).Nodup
  conditions : ∀ f ∈ p.fields, f.2.Expressible

theorem eq_default_of_isEmpty {p : Predicate} (h : p.isEmpty = true) : p = {} := by
  obtain ⟨raw, fields⟩ := p
  simpa [isEmpty] using h

end Predicate

theorem Json.filters_toJson {p : Predicate} (h : p.Expressible) : Filters p.toJson p := by
  obtain ⟨raw, fields⟩ := p
  cases raw with
  | some raw =>
    obtain rfl : fields = [] := h.pure.resolve_left nofun
    exact .raw raw
  | none =>
    rw [Predicate.toJson, ofMembers_map h.distinct]
    refine .fields ?_
    rw [List.forall₂_map_left_iff, List.forall₂_same]
    exact fun f hf => ⟨rfl, imposes_toJson (h.conditions f hf)⟩

/-! ### Queries -/

namespace Json

/-- A list of names with flags. -/
def ofFlags {α : Type} (flag : α → Bool) (entries : List (String × α)) : Json :=
  ofMembers (entries.map fun e => (e.1, bool (flag e.2)))

theorem flags_ofFlags {α : Type} {flag : α → Bool} {meaning : Bool → α}
    (hflag : ∀ a, meaning (flag a) = a) {entries : List (String × α)}
    (distinct : (entries.map (·.1)).Nodup) : Flags meaning (ofFlags flag entries) entries := by
  refine ⟨_, ofMembers_map distinct, ?_⟩
  have hentry (e : String × α) : (e.1, meaning (isTruthy (bool (flag e.2)))) = e :=
    congrArg (Prod.mk e.1) (hflag e.2)
  rw [List.map_map]
  exact (List.map_id'' hentry entries).symm

/-- A count. -/
def ofCount (n : UInt64) : Json := integer n.toNat

end Json

/-- The direction as a flag. -/
def Direction.isAscending : Direction → Bool
  | ascending => true
  | descending => false

namespace Query

/-- The parts of the query under their names, without those that ask for nothing. -/
def parts (q : Query) : List (String × Option Json) :=
  [("columns", if q.columns.isEmpty then none else some (ofFlags id q.columns)),
    ("where", if q.predicate.isEmpty then none else some q.predicate.toJson),
    ("order",
      if q.ordering.isEmpty then none else some (ofFlags Direction.isAscending q.ordering)),
    ("limit", q.limit.map ofCount),
    ("offset", q.offset.map ofCount)]

/-- The query as an object. -/
def toJson (q : Query) : Json := object (present q.parts)

/-- Every list of the query has distinct names, and there is a filter for its conditions. -/
structure Expressible (q : Query) : Prop where
  columns : (q.columns.map (·.1)).Nodup
  predicate : q.predicate.Expressible
  ordering : (q.ordering.map (·.1)).Nodup

theorem given_count (n : Option UInt64) : Given Counts none (n.map ofCount) n :=
  given_map fun k _ => ⟨k, rfl, rfl⟩

theorem requests_of_holds {q : Query} (h : q.Expressible) {members : List (String × Json)}
    (holds : Holds members q.parts) : Requests members q := by
  have hfound := holds.found
  simp only [parts, List.forall_mem_cons] at hfound
  obtain ⟨hcolumns, hwhere, horder, hlimit, hoffset, -⟩ := hfound
  have habsent (name : String) (hname : name ∉ ["columns", "where", "order", "limit", "offset"]) :
      members.lookup name = none := holds.absent name hname
  constructor
  · rw [either?, hcolumns, habsent "projection" (by decide), Option.or_none]
    exact given_ite List.isEmpty_iff.1 (flags_ofFlags (fun _ => rfl) h.columns)
  · rw [either?, hwhere, habsent "predicate" (by decide), Option.or_none]
    exact given_ite Predicate.eq_default_of_isEmpty (filters_toJson h.predicate)
  · rw [either?, horder, habsent "ordering" (by decide), Option.or_none]
    exact given_ite List.isEmpty_iff.1 (flags_ofFlags (fun d => by cases d <;> rfl) h.ordering)
  · rw [hlimit]
    exact given_count q.limit
  · rw [hoffset]
    exact given_count q.offset

theorem requests_parts {q : Query} (h : q.Expressible) : Requests (present q.parts) q := by
  have hdistinct : (q.parts.map (·.1)).Nodup := by
    show ["columns", "where", "order", "limit", "offset"].Nodup
    decide
  exact requests_of_holds h (holds_of_perm hdistinct (.refl _))

theorem ofJson_toJson {q : Query} (h : q.Expressible) : ofJson q.toJson = .ok q :=
  (reads_query_object _).ok_iff q |>.2 (requests_parts h)

end Query

/-! ### Joins -/

namespace JoinRequest

/-- The column pairs as a list.  A single pair may stand without it. -/
def pairsToJson (bare : Bool) : List String → Json
  | [pair] => if bare then .text pair else .array [.text pair]
  | pairs => .array (pairs.map .text)

/-- The request as an object. -/
def toJson (bare : Bool) (r : JoinRequest) : Json :=
  .object [("table", .text r.table), ("inner", pairsToJson bare r.pairs),
    ("options", r.query.toJson)]

theorem pairs_pairsToJson (bare : Bool) (pairs : List String) :
    Pairs (pairsToJson bare pairs) pairs := by
  have hlist (pairs : List String) : Pairs (.array (pairs.map .text)) pairs := by
    refine .list ?_
    rw [List.forall₂_map_left_iff, List.forall₂_same]
    exact fun _ _ => rfl
  unfold pairsToJson
  split
  · split_ifs
    · exact .single _
    · exact hlist [_]
  · exact hlist pairs

theorem ofJson_toJson (bare : Bool) {r : JoinRequest} (h : r.query.Expressible) :
    ofJson (r.toJson bare) = .ok r :=
  (reads_join_object _).ok_iff r |>.2
    ⟨rfl, pairs_pairsToJson bare r.pairs, _, rfl, Query.requests_parts h⟩

end JoinRequest

/-! ### Calls with requests in JSON -/

/-- A call with a request that is read first asks for what the call with the request asks for. -/
theorem Plan.SameTexts.of_read {α β : Type} {result : Except Fault α} {a : α}
    (h : result = .ok a) (d : Dialect) (p : α → Plan β) :
    ((Plan.lift result).bind p).SameTexts d (p a) := by
  rw [h]
  exact .refl (p a)

/-- **Queries and joins are read as they were written**, and so a call with the written request asks
for the same texts as the call with the request itself. -/
theorem Query.json_keeps_query {q : Query} (h : q.Expressible) :
    ofJson q.toJson = .ok q ∧
      (∀ (bare : Bool) (table : String) (pairs : List String),
        JoinRequest.ofJson (JoinRequest.toJson bare ⟨table, pairs, q⟩) = .ok ⟨table, pairs, q⟩) ∧
      ∀ (d : Dialect) (t : Table),
        ((Plan.lift (ofJson q.toJson)).bind t.find).SameTexts d (t.find q) ∧
        ((Plan.lift (ofJson q.toJson)).bind t.delete).SameTexts d (t.delete q) ∧
        (∀ record, ((Plan.lift (ofJson q.toJson)).bind (t.update record)).SameTexts d
          (t.update record q)) ∧
        ∀ (bare : Bool) (table : String) (pairs : List String),
          ((Plan.lift (JoinRequest.ofJson (JoinRequest.toJson bare ⟨table, pairs, q⟩))).bind
            t.join).SameTexts d (t.join ⟨table, pairs, q⟩) := by
  have hquery := ofJson_toJson h
  have hjoin (bare : Bool) (table : String) (pairs : List String) :=
    JoinRequest.ofJson_toJson bare (r := ⟨table, pairs, q⟩) h
  refine ⟨hquery, hjoin, fun d t => ⟨?_, ?_, ?_, ?_⟩⟩
  · exact .of_read hquery d t.find
  · exact .of_read hquery d t.delete
  · exact fun record => .of_read hquery d (t.update record)
  · exact fun bare table pairs => .of_read (hjoin bare table pairs) d t.join

/-- A query with an excluded column, a null test, two comparisons of a number and the largest limit,
by itself and in a join on one pair. -/
theorem Query.json_keeps_query_marks :
    let number : Value := .real (.finite true ⟨1, by decide⟩)
    let q : Query :=
      { columns := [("secret", false), ("id", true)]
        predicate.fields :=
          [("price", .all [⟨.gt, number⟩, ⟨.ne, .null⟩]), ("$eq", .is (.bool true))]
        ordering := [("id", .descending)]
        limit := some (-1) }
    let written : Json := .object
      [("columns", .object [("secret", .bool false), ("id", .bool true)]),
        ("where", .object [
          ("price", .object [("$gt", .real (.finite true ⟨1, by decide⟩)), ("$ne", .null)]),
          ("$eq", .bool true)]),
        ("order", .object [("id", .bool false)]), ("limit", .integer 18446744073709551615)]
    ofJson written = .ok q ∧
      JoinRequest.ofJson
          (.object [("table", .text "users"), ("inner", .text "a:b"), ("options", written)]) =
        .ok ⟨"users", ["a:b"], q⟩ := by
  intro number q written
  have hconditions : ∀ f ∈ q.predicate.fields, f.2.Expressible := by
    simp [q, number, Condition.Expressible, Value.Expressible, Double.isFinite]
  have h : q.Expressible := ⟨by decide, ⟨.inl rfl, by decide, hconditions⟩, by decide⟩
  obtain ⟨hquery, hjoin, -⟩ := json_keeps_query h
  exact ⟨hquery, hjoin true "users" ["a:b"]⟩

end Keyset
