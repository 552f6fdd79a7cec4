import Keyset.Proofs.Json.Encoding

/-!
# Page requests written as JSON

The cursors of a request for a page are written as their texts, and the other parts as the parts of
queries are.  Most parts have two names, and may be written under either (`PageForm`).

* `Cursor.ofText_text_of_legible` : which cursors are read from their text as they are.
* `PageForm.nodup_names` : no two parts have a name in common.
* `PageRequest.json_keeps_page_request` : **requests for pages are read as they were written**,
  under whichever names and in whichever order.
-/

namespace Keyset

open Json

/-! ### Cursors -/

namespace Cursor

/-- The text of the cursor stands for its key.  That of a double may stand for an integer, and that
of a text for a timestamp. -/
def Legible (c : Cursor) : Prop :=
  match c.value with
  | .real _ => False
  | .text s => Timestamp.read? s.toList = none
  | _ => True

theorem ofText_text_of_legible {c : Cursor} (h : c.Legible) : ofText c.text = .ok c := by
  have hread : c.value.readBack = c.value := by
    obtain ⟨value, whole⟩ := c
    cases value with
    | null => rfl
    | bool b => rfl
    | integer n => rfl
    | real x => exact h.elim
    | text s => exact Value.readBack_text_of_not_read? h
    | timestamp t =>
      have hwhole : Value.timestamp t = .timestamp t.wholeSecond := whole.symm
      show (Value.timestamp t).readBack = .timestamp t
      rw [hwhole]
      exact Value.readBack_timestamp_wholeSecond t
  rw [ofText_text, hread, ofKey_value]

end Cursor

/-! ### The form of a request -/

/-- How a request is written: for each part with two names whether it has the first one, and whether
parts that ask for nothing are left out. -/
structure PageForm where
  since : Bool := true
  bound : Bool := true
  filter : Bool := true
  columns : Bool := true
  key : Bool := true
  terse : Bool := true

namespace PageForm

/-- One of two names. -/
def pick (first : Bool) (name other : String) : String := if first then name else other

variable (form : PageForm)

/-- The names of the parts. -/
def names : List String :=
  [pick form.since "sinceId" "since_id", pick form.bound "maxId" "max_id", "limit",
    pick form.filter "where" "predicate", pick form.columns "columns" "projection",
    pick form.key "keyField" "key_field", "reverse"]

/-- The other names that the parts might have. -/
def otherNames : List String :=
  [pick (!form.since) "sinceId" "since_id", pick (!form.bound) "maxId" "max_id",
    pick (!form.filter) "where" "predicate", pick (!form.columns) "columns" "projection",
    pick (!form.key) "keyField" "key_field"]

theorem nodup_names : (form.names ++ form.otherNames).Nodup := by
  obtain ⟨since, bound, filter, columns, key, terse⟩ := form
  revert since bound filter columns key terse
  decide

end PageForm

theorem Json.either?_pick {first : Bool} {name other : String} {members : List (String × Json)}
    {v : Option Json} (h : members.lookup (PageForm.pick first name other) = v)
    (absent : members.lookup (PageForm.pick (!first) name other) = none) :
    either? name other members = v := by
  cases first with
  | true =>
    have h : members.lookup name = v := h
    have absent : members.lookup other = none := absent
    rw [either?, h, absent, Option.or_none]
  | false =>
    have h : members.lookup other = v := h
    have absent : members.lookup name = none := absent
    rw [either?, h, absent, Option.none_or]

/-! ### Requests -/

namespace PageRequest

/-- The parts of the request under their names. -/
def parts (r : PageRequest) (form : PageForm) : List (String × Option Json) :=
  [(PageForm.pick form.since "sinceId" "since_id", r.since.map fun c => .text c.text),
    (PageForm.pick form.bound "maxId" "max_id", r.bound.map fun c => .text c.text),
    ("limit", r.limit.map ofCount),
    (PageForm.pick form.filter "where" "predicate",
      if form.terse && r.predicate.isEmpty then none else some r.predicate.toJson),
    (PageForm.pick form.columns "columns" "projection",
      if form.terse && r.columns.isEmpty then none else some (ofFlags id r.columns)),
    (PageForm.pick form.key "keyField" "key_field", r.key.map .text),
    ("reverse", if form.terse && !r.reverse then none else some (.bool r.reverse))]

/-- The cursors are legible, there is a filter for the conditions, and the columns are distinct. -/
structure Expressible (r : PageRequest) : Prop where
  since : ∀ c ∈ r.since, c.Legible
  bound : ∀ c ∈ r.bound, c.Legible
  predicate : r.predicate.Expressible
  columns : (r.columns.map (·.1)).Nodup

variable {r : PageRequest} {form : PageForm} {members : List (String × Json)}

theorem given_cursor {given : Option Cursor} (h : ∀ c ∈ given, c.Legible) {name other : String}
    (found : either? name other members = given.map fun c => .text c.text) :
    Given MarksSome none (cursor? name other members) given := by
  rw [cursor?, found]
  cases given with
  | none => rfl
  | some c => exact ⟨c, .spelled (Cursor.ofText_text_of_legible (h c rfl)), rfl⟩

theorem requestsPage_of_holds (h : r.Expressible) (holds : Holds members (r.parts form)) :
    RequestsPage members r := by
  have hfound := holds.found
  simp only [parts, List.forall_mem_cons] at hfound
  obtain ⟨hsince, hbound, hlimit, hfilter, hcolumns, hkey, hreverse, -⟩ := hfound
  have hother (name : String) (hname : name ∈ form.otherNames) : members.lookup name = none :=
    holds.absent name fun hmem => List.disjoint_of_nodup_append form.nodup_names hmem hname
  simp only [PageForm.otherNames, List.forall_mem_cons] at hother
  obtain ⟨hsince', hbound', hfilter', hcolumns', hkey', -⟩ := hother
  constructor
  · exact given_cursor h.since (either?_pick hsince hsince')
  · exact given_cursor h.bound (either?_pick hbound hbound')
  · rw [hlimit]
    exact Query.given_count r.limit
  · rw [either?_pick hfilter hfilter']
    exact given_ite
      (fun hempty => Predicate.eq_default_of_isEmpty (Bool.and_eq_true_iff.1 hempty).2)
      (filters_toJson h.predicate)
  · rw [either?_pick hcolumns hcolumns']
    exact given_ite (fun hempty => List.isEmpty_iff.1 (Bool.and_eq_true_iff.1 hempty).2)
      (flags_ofFlags (fun _ => rfl) h.columns)
  · rw [either?_pick hkey hkey']
    exact given_map fun s _ => ⟨s, rfl, rfl⟩
  · rw [hreverse]
    cases form.terse <;> cases r.reverse <;> rfl

/-- **A request for a page is read as it was written**, under whichever names and in whichever order
its parts are.  So the page that is asked for in JSON is the same plan as that of the request: it
asks for the same statements, and gives the same page. -/
theorem json_keeps_page_request (h : r.Expressible) (form : PageForm)
    (perm : members.Perm (present (r.parts form))) :
    ofJson (.object members) = .ok r ∧
      ∀ t : Table, (Plan.lift (ofJson (.object members))).bind t.page = t.page r := by
  have hdistinct : ((r.parts form).map (·.1)).Nodup := form.nodup_names.of_append_left
  have hread : ofJson (.object members) = .ok r :=
    (reads_page_object members).ok_iff r |>.2
      (requestsPage_of_holds h (holds_of_perm hdistinct perm))
  refine ⟨hread, fun t => ?_⟩
  rw [hread]
  rfl

/-- A text with a mark that begins as a number does, and the absent value, as cursors, with names of
either kind and the last part first. -/
theorem json_keeps_page_request_mixed :
    let r : PageRequest :=
      { since := some (.ofKey (.text "1e5\x27"))
        bound := some (.ofKey .null)
        predicate.fields := [("age", .all [⟨.ne, .null⟩, ⟨.ge, .integer 18⟩])]
        columns := [("title", true)]
        key := some "seq"
        reverse := true }
    ofJson (.object
        [("reverse", .bool true), ("key_field", .text "seq"),
          ("projection", .object [("title", .bool true)]),
          ("where", .object [("age", .object [("$ne", .null), ("$gte", .integer 18)])]),
          ("max_id", .text "NULL"), ("sinceId", .text "\x271e5\x27\x27\x27")]) = .ok r := by
  intro r
  have hsince : ∀ c ∈ r.since, c.Legible := by
    have hnone : Timestamp.read? "1e5\x27".toList = none := by decide
    rintro _ ⟨⟩
    exact hnone
  have hbound : ∀ c ∈ r.bound, c.Legible := by
    rintro _ ⟨⟩
    exact trivial
  have hconditions : ∀ f ∈ r.predicate.fields, f.2.Expressible := by
    simp [r, Condition.Expressible, Value.Expressible]
  have h : r.Expressible := ⟨hsince, hbound, ⟨.inl rfl, by decide, hconditions⟩, by decide⟩
  let form : PageForm := { bound := false, columns := false, key := false }
  exact (json_keeps_page_request h form (List.reverse_perm (present (r.parts form)))).1

end PageRequest

end Keyset
