import Keyset.Query.Clause

/-!
# The conditions of a filter

The conditions on the columns of a filter are conjunctions of comparisons, empty ones among them, in
one larger conjunction.  Written in a row they are a single conjunction, that of all the comparisons
in their order: `Predicate.comparisons`.

* `Fragment.conjunction_flatten` : **a conjunction of conjunctions is one conjunction.**
* `Clause.predicate_eq` : the filter of rows by its comparisons.
-/

namespace Keyset

open Fragment

namespace Fragment

/-! ### Conjunctions of conjunctions -/

/-- The conjunction of two fragments, of which an empty one says nothing. -/
def also (a b : Fragment) : Fragment :=
  if a.isEmpty then b else if b.isEmpty then a else a.push (.token .AND) ++ b

theorem isEmpty_append (a b : Fragment) : (a ++ b).isEmpty = (a.isEmpty && b.isEmpty) := by
  unfold isEmpty
  rw [pieces_append]
  cases a.pieces <;> rfl

theorem isEmpty_push (a : Fragment) (c : Piece) : (a.push c).isEmpty = false := by
  rw [push_eq_append, isEmpty_append]
  exact Bool.and_false _

theorem also_assoc (a b c : Fragment) : (a.also b).also c = a.also (b.also c) := by
  unfold also
  cases ha : a.isEmpty <;> cases hb : b.isEmpty <;> cases hc : c.isEmpty <;>
    simp [ha, hb, hc, isEmpty_append, push_eq_append, append_assoc]

theorem isEmpty_join {t : Token} {as : List Fragment} (h : ∀ a ∈ as, a.isEmpty = false) :
    (join t as).isEmpty = as.isEmpty := by
  cases as with
  | nil => rfl
  | cons a as =>
    cases as with
    | nil => exact h a List.mem_cons_self
    | cons b as => rw [join, isEmpty_append, isEmpty_push, Bool.false_and, List.isEmpty_cons]

theorem conjunction_of_forall {as : List Fragment} (h : ∀ a ∈ as, a.isEmpty = false) :
    conjunction as = join .AND as := by
  rw [conjunction, List.filter_eq_self.2]
  intro a ha
  rw [h a ha]
  rfl

theorem conjunction_cons (a : Fragment) (as : List Fragment) :
    conjunction (a :: as) = a.also (conjunction as) := by
  have hfilter : ∀ b ∈ as.filter fun a => !a.isEmpty, b.isEmpty = false := by
    intro b hb
    simpa using (List.mem_filter.1 hb).2
  unfold conjunction also
  rw [isEmpty_join hfilter, List.filter_cons]
  cases ha : a.isEmpty with
  | true => rfl
  | false =>
    cases as.filter fun a => !a.isEmpty with
    | nil => rfl
    | cons b bs => rfl

theorem conjunction_append (as bs : List Fragment) :
    conjunction (as ++ bs) = (conjunction as).also (conjunction bs) := by
  induction as with
  | nil => rfl
  | cons a as ih => rw [List.cons_append, conjunction_cons, conjunction_cons, ih, also_assoc]

/-- **A conjunction of conjunctions is one conjunction.** -/
theorem conjunction_flatten (groups : List (List Fragment)) :
    conjunction (groups.map conjunction) = conjunction groups.flatten := by
  induction groups with
  | nil => rfl
  | cons as groups ih =>
    rw [List.map_cons, conjunction_cons, List.flatten_cons, conjunction_append, ih]

end Fragment

/-! ### The comparisons of a filter -/

/-- The comparisons that a condition makes. -/
def Condition.comparisons : Condition → List Comparison
  | is v => [⟨.eq, v⟩]
  | all cs => cs

/-- The comparisons that a filter makes, each with its column. -/
def Predicate.comparisons (p : Predicate) : List (String × Comparison) :=
  p.fields.flatMap fun (field, c) => c.comparisons.map (field, ·)

/-- A comparison of a column as a condition. -/
def Comparison.on (entry : String × Comparison) : Fragment := entry.2.fragment (ident entry.1)

theorem Comparison.isEmpty_on (entry : String × Comparison) : (on entry).isEmpty = false := by
  obtain ⟨field, op, v⟩ := entry
  cases op <;> cases v <;> rfl

theorem Condition.fragment_eq (c : Condition) (field : String) :
    c.fragment field = conjunction (c.comparisons.map fun c => Comparison.on (field, c)) := by
  cases c with
  | is v => cases v <;> rfl
  | all cs => rfl

/-- The conditions of a filter are the conjunction of its comparisons. -/
theorem Predicate.conjunction_fields (p : Predicate) :
    conjunction (p.fields.map fun (field, c) => c.fragment field) =
      join .AND (p.comparisons.map Comparison.on) := by
  have hgroups : p.fields.map (fun (field, c) => c.fragment field) =
      (p.fields.map fun (field, c) =>
        c.comparisons.map fun c => Comparison.on (field, c)).map conjunction := by
    rw [List.map_map]
    exact List.map_congr_left fun f _ => Condition.fragment_eq f.2 f.1
  have hflat : (p.fields.map fun (field, c) =>
      c.comparisons.map fun c => Comparison.on (field, c)).flatten =
      p.comparisons.map Comparison.on := by
    rw [comparisons, List.map_flatMap, List.flatMap_def]
    simp only [List.map_map]
    rfl
  rw [hgroups, conjunction_flatten, hflat, conjunction_of_forall]
  intro a ha
  obtain ⟨entry, -, rfl⟩ := List.mem_map.1 ha
  exact Comparison.isEmpty_on entry

/-- **The filter of rows by its comparisons.** -/
theorem Clause.predicate_eq (p : Predicate) :
    predicate p = token .WHERE ++ match p.raw, p.comparisons with
      | none, [] => token .TRUE
      | none, cs => join .AND (cs.map Comparison.on)
      | some text, [] => single (.raw text)
      | some text, cs =>
        (single (.raw text)).parens.push (.token .AND) ++ join .AND (cs.map Comparison.on) := by
  have hempty : (join .AND (p.comparisons.map Comparison.on)).isEmpty = p.comparisons.isEmpty := by
    rw [isEmpty_join, List.isEmpty_map]
    intro a ha
    obtain ⟨entry, -, rfl⟩ := List.mem_map.1 ha
    exact Comparison.isEmpty_on entry
  rw [predicate, p.conjunction_fields]
  simp only [hempty]
  cases p.raw <;> cases p.comparisons <;> rfl

end Keyset
