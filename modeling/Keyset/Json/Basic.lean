import Keyset.Double

/-!
# JSON values

A JSON object is kept as the list of its members in the order of the document, each name once.

* `Json.put_of_not_mem` : a new name goes to the end.
* `Json.map_fst_put_of_mem` : a name that is there keeps its place.
-/

namespace Keyset

/-- A JSON value. Integers are told apart from other numbers by the way they are written. -/
inductive Json
  /-- The null value. -/
  | null
  /-- A truth value. -/
  | bool (b : Bool)
  /-- A number written as an integer. -/
  | integer (n : Int)
  /-- Any other number. -/
  | real (x : Double)
  /-- A string. -/
  | text (s : String)
  /-- A list. -/
  | array (items : List Json)
  /-- An object, with its members in their order. -/
  | object (members : List (String × Json))

namespace Json

/-- The value is null. -/
def isNull : Json → Bool
  | null => true
  | _ => false

/-- The members with a value set: in the place of the old one of its name, or else at the end. -/
def put (name : String) (v : Json) : List (String × Json) → List (String × Json)
  | [] => [(name, v)]
  | (other, w) :: rest => if other = name then (name, v) :: rest else (other, w) :: put name v rest

/-- The value of the first member with one of two names, the first name before the second. -/
def either? (name other : String) (members : List (String × Json)) : Option Json :=
  (members.lookup name).or (members.lookup other)

theorem put_of_not_mem {name : String} {members : List (String × Json)}
    (h : name ∉ members.map (·.1)) (v : Json) : put name v members = members ++ [(name, v)] := by
  induction members with
  | nil => rfl
  | cons m rest ih =>
    simp only [List.map_cons, List.mem_cons, not_or] at h
    simp [put, ih h.2, Ne.symm h.1]

theorem map_fst_put_of_mem {name : String} {members : List (String × Json)}
    (h : name ∈ members.map (·.1)) (v : Json) :
    (put name v members).map (·.1) = members.map (·.1) := by
  induction members with
  | nil => simp at h
  | cons m rest ih =>
    by_cases hm : m.1 = name
    · simp [put, hm]
    · have h' : name ∈ rest.map (·.1) := by
        rcases List.mem_cons.1 h with e | h
        · exact absurd e.symm hm
        · exact h
      simp [put, hm, ih h']

end Json

end Keyset
