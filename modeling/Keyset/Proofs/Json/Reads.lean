import Keyset.Json.Shape
import Mathlib.Data.List.Forall2

/-!
# Readers of JSON

A reader gives the content of what has its shape, and a fault for everything else.  `Json.Reads`
says all three of the result of a reader, and results are put together as the parts of a document
are:

* `Json.Reads.mapM` : a list is read item by item, up to the first fault;
* `Json.Reads.readOr` : a member that may be absent;
* `Json.Reads.bind` : one part after another, up to the first fault.

The leaves are `Json.reads_asValue`, `Json.reads_asCount`, `Json.reads_asText` and
`Json.reads_asObject`.
-/

namespace Keyset

namespace Json

/-- The result of a reader: the content, and no fault, iff the input has the shape. -/
structure Reads {α : Type} (result : Except Fault α) (shape : Prop) (content : α → Prop)
    (fault : Fault → Prop) : Prop where
  /-- What has the shape is read. -/
  fits_iff : (∃ a, result = .ok a) ↔ shape
  /-- What is read is the content. -/
  ok_iff : ∀ a, result = .ok a ↔ content a
  /-- What is not read has the fault. -/
  error_iff : ∀ e, result = .error e ↔ fault e

/-- The first item without the shape has the fault. -/
def FirstFault {α : Type} (shape : α → Prop) (fault : α → Fault → Prop) (items : List α)
    (e : Fault) : Prop :=
  ∃ before item after, items = before ++ item :: after ∧ (∀ i ∈ before, shape i) ∧ fault item e

theorem not_firstFault_nil {α : Type} {shape : α → Prop} {fault : α → Fault → Prop} {e : Fault} :
    ¬ FirstFault shape fault [] e := by
  rintro ⟨before, item, after, hitems, -⟩
  simp at hitems

theorem firstFault_cons_iff {α : Type} {shape : α → Prop} {fault : α → Fault → Prop} {e : Fault}
    {a : α} {items : List α} :
    FirstFault shape fault (a :: items) e ↔
      fault a e ∨ shape a ∧ FirstFault shape fault items e := by
  constructor
  · rintro ⟨before, item, after, hitems, hbefore, hfault⟩
    cases before with
    | nil =>
      obtain ⟨rfl, -⟩ := List.cons.inj hitems
      exact .inl hfault
    | cons b before =>
      obtain ⟨rfl, rfl⟩ := List.cons.inj hitems
      exact .inr ⟨hbefore a List.mem_cons_self, before, item, after, rfl,
        fun i hi => hbefore i (List.mem_cons_of_mem a hi), hfault⟩
  · rintro (hfault | ⟨hshape, before, item, after, rfl, hbefore, hfault⟩)
    · exact ⟨[], a, items, rfl, nofun, hfault⟩
    · exact ⟨a :: before, item, after, rfl, List.forall_mem_cons.2 ⟨hshape, hbefore⟩, hfault⟩

/-- The content of a member, or what stands for it if it is absent. -/
def Given {α : Type} (content : Json → α → Prop) (absent : α) : Option Json → α → Prop
  | none, a => a = absent
  | some j, a => content j a

namespace Reads

variable {α β : Type} {result : Except Fault α} {shape : Prop} {content : α → Prop}
  {fault : Fault → Prop}

theorem congr (h : Reads result shape content fault) {shape' : Prop} {content' : α → Prop}
    {fault' : Fault → Prop} (hshape : shape ↔ shape') (hcontent : ∀ a, content a ↔ content' a)
    (hfault : ∀ e, fault e ↔ fault' e) : Reads result shape' content' fault' where
  fits_iff := h.fits_iff.trans hshape
  ok_iff a := (h.ok_iff a).trans (hcontent a)
  error_iff e := (h.error_iff e).trans (hfault e)

/-- There is a content or a fault. -/
theorem cases (h : Reads result shape content fault) :
    (∃ a, result = .ok a ∧ shape) ∨ ∃ e, result = .error e ∧ ¬ shape := by
  rw [← h.fits_iff]
  cases result <;> simp

theorem ok (a : α) : Reads (.ok a) True (· = a) fun _ => False where
  fits_iff := iff_of_true ⟨a, rfl⟩ trivial
  ok_iff b := by simp [eq_comm]
  error_iff e := by simp

theorem error (e : Fault) : Reads (.error e : Except Fault α) False (fun _ => False) (· = e) where
  fits_iff := by simp
  ok_iff a := by simp
  error_iff e' := by simp [eq_comm]

theorem map (h : Reads result shape content fault) (f : α → β) :
    Reads (result.map f) shape (fun b => ∃ a, content a ∧ b = f a) fault where
  fits_iff := by
    rw [← h.fits_iff]
    cases result <;> simp [Except.map]
  ok_iff b := by
    simp only [← h.ok_iff]
    cases result <;> simp [Except.map, eq_comm]
  error_iff e := by
    rw [← h.error_iff]
    cases result <;> simp [Except.map]

/-- **One part after another**: the fault is that of the first part that has one. -/
theorem bind {next : α → Except Fault β} {shape' : Prop} {content' : α → β → Prop}
    {fault' : Fault → Prop} (h : Reads result shape content fault)
    (h' : ∀ a, Reads (next a) shape' (content' a) fault') :
    Reads (result >>= next) (shape ∧ shape') (fun b => ∃ a, content a ∧ content' a b)
      (fun e => fault e ∨ shape ∧ fault' e) where
  fits_iff := by
    rw [← h.fits_iff]
    cases result with
    | ok a => simpa [Bind.bind, Except.bind] using (h' a).fits_iff
    | error e => simp [Bind.bind, Except.bind]
  ok_iff b := by
    simp only [← h.ok_iff]
    cases result with
    | ok a => simpa [Bind.bind, Except.bind] using (h' a).ok_iff b
    | error e => simp [Bind.bind, Except.bind]
  error_iff e := by
    rw [← h.error_iff, ← h.fits_iff]
    cases result with
    | ok a => simpa [Bind.bind, Except.bind] using (h' a).error_iff e
    | error e' => simp [Bind.bind, Except.bind]

/-- A member that may be absent. -/
theorem readOr {read : Json → Except Fault α} {shape : Json → Prop} {content : Json → α → Prop}
    {fault : Json → Fault → Prop} (h : ∀ j, Reads (read j) (shape j) (content j) (fault j))
    (absent : α) (member : Option Json) :
    Reads (Json.readOr member absent read) (∀ j ∈ member, shape j) (Given content absent member)
      (fun e => ∃ j ∈ member, fault j e) := by
  cases member with
  | none => exact (ok absent).congr (by simp) (fun _ => Iff.rfl) (by simp)
  | some j => exact (h j).congr (by simp) (fun _ => Iff.rfl) (by simp)

section

variable {read : α → Except Fault β}

theorem mapM_cons_ok {a : α} {b : β} (ha : read a = .ok b) (items : List α) :
    (a :: items).mapM read = (items.mapM read).map (b :: ·) := by
  rw [List.mapM_cons, ha]
  cases items.mapM read <;> rfl

theorem mapM_cons_error {a : α} {e : Fault} (ha : read a = .error e) (items : List α) :
    (a :: items).mapM read = .error e := by
  rw [List.mapM_cons, ha]
  rfl

/-- **A list is read item by item**, up to the first fault. -/
theorem mapM {shape : α → Prop} {content : α → β → Prop} {fault : α → Fault → Prop}
    (h : ∀ a, Reads (read a) (shape a) (content a) (fault a)) (items : List α) :
    Reads (items.mapM read) (∀ i ∈ items, shape i) (List.Forall₂ content items)
      (FirstFault shape fault items) := by
  induction items with
  | nil =>
    refine (ok ([] : List β)).congr (by simp) (fun bs => ?_) fun e => ?_
    · exact List.forall₂_nil_left_iff.symm
    · exact iff_of_false id not_firstFault_nil
  | cons a items ih =>
    rcases (h a).cases with ⟨b, hb, hshape⟩ | ⟨e, he, hshape⟩
    · rw [mapM_cons_ok hb]
      refine (ih.map (b :: ·)).congr ?_ (fun bs => ?_) fun e => ?_
      · rw [List.forall_mem_cons]
        exact (and_iff_right hshape).symm
      · simp [List.forall₂_cons_left_iff, ← (h a).ok_iff, hb]
      · simp [firstFault_cons_iff, ← (h a).error_iff, hb, hshape]
    · rw [mapM_cons_error he]
      refine (error e).congr ?_ (fun bs => ?_) fun e' => ?_
      · simp [hshape]
      · simp [List.forall₂_cons_left_iff, ← (h a).ok_iff, he]
      · simp [firstFault_cons_iff, ← (h a).error_iff, he, hshape, eq_comm]

end

end Reads

/-! ### Leaves -/

/-- Neither a list nor an object. -/
def IsScalar : Json → Prop
  | array _ | object _ => False
  | _ => True

instance : DecidablePred IsScalar
  | array _ | object _ => isFalse id
  | null | bool _ | integer _ | real _ | text _ => isTrue trivial

/-- An object. -/
def IsObject (j : Json) : Prop := ∃ members, j = object members

/-- A string. -/
def IsText (j : Json) : Prop := ∃ s, j = text s

/-- An integer that fits into sixty-four unsigned bits. -/
def IsCount (j : Json) : Prop := ∃ n : Int, 0 ≤ n ∧ n < UInt64.size ∧ j = integer n

/-- The value that a scalar stands for.  An integer that does not fit into sixty-four signed bits
becomes a double. -/
inductive Stands : Json → Value → Prop
  | null : Stands null .null
  | bool (b : Bool) : Stands (bool b) (.bool b)
  | integer (n : Int64) : Stands (integer n.toInt) (.integer n)
  | large {n : Int} (wide : ∀ k : Int64, k.toInt ≠ n) : Stands (integer n) (.real (.ofInt n))
  | real (x : Double) : Stands (real x) (.real x)
  | text (s : String) : Stands (text s) (.text s)

theorem valueOfInteger_toInt (n : Int64) : valueOfInteger n.toInt = .integer n := by
  have hmin : Int64.minValue.toInt = -2 ^ 63 := by decide
  have hmax : Int64.maxValue.toInt = 2 ^ 63 - 1 := by decide
  have hlow := n.le_toInt
  have hhigh := n.toInt_lt
  rw [valueOfInteger, hmin, hmax, if_pos (by omega), Int64.ofInt_toInt]

theorem valueOfInteger_of_wide {n : Int} (wide : ∀ k : Int64, k.toInt ≠ n) :
    valueOfInteger n = .real (.ofInt n) := by
  have hmax : Int64.maxValue.toInt = 2 ^ 63 - 1 := by decide
  rw [valueOfInteger, if_neg]
  rintro ⟨hlow, hhigh⟩
  rw [hmax] at hhigh
  exact wide (Int64.ofInt n) (Int64.toInt_ofInt_of_le hlow (by omega))

theorem stands_valueOfInteger (n : Int) : Stands (.integer n) (valueOfInteger n) := by
  by_cases hfits : ∃ k : Int64, k.toInt = n
  · obtain ⟨k, rfl⟩ := hfits
    rw [valueOfInteger_toInt]
    exact .integer k
  · have wide : ∀ k : Int64, k.toInt ≠ n := not_exists.1 hfits
    rw [valueOfInteger_of_wide wide]
    exact .large wide

theorem asValue_eq_ok_iff {field : String} {j : Json} {v : Value} :
    j.asValue field = .ok v ↔ Stands j v := by
  constructor
  · intro h
    cases j with
    | null => cases h; exact .null
    | bool b => cases h; exact .bool b
    | integer n => cases h; exact stands_valueOfInteger n
    | real x => cases h; exact .real x
    | text s => cases h; exact .text s
    | array items => cases h
    | object members => cases h
  · rintro (_ | b | n | wide | x | s)
    · rfl
    · rfl
    · exact congrArg Except.ok (valueOfInteger_toInt n)
    · exact congrArg Except.ok (valueOfInteger_of_wide wide)
    · rfl
    · rfl

theorem reads_asValue (field : String) (j : Json) : Reads (j.asValue field) j.IsScalar (Stands j)
    fun e => ¬ j.IsScalar ∧ e = .misfit (.notLiteral field) where
  fits_iff := by cases j <;> simp [asValue, IsScalar]
  ok_iff _ := asValue_eq_ok_iff
  error_iff e := by cases j <;> simp [asValue, IsScalar, eq_comm]

theorem isCount_iff {j : Json} : j.IsCount ↔ ∃ n, j.toCount? = some n := by
  simp only [toCount?_eq_some_iff]
  constructor
  · rintro ⟨n, hlow, hhigh, rfl⟩
    refine ⟨UInt64.ofNat n.toNat, ?_⟩
    rw [UInt64.toNat_ofNat_of_lt' (by omega), Int.toNat_of_nonneg hlow]
  · rintro ⟨n, rfl⟩
    have hlt := n.toNat_lt_size
    exact ⟨n.toNat, by omega, by omega, rfl⟩

theorem reads_asCount (what : String) (j : Json) : Reads (j.asCount what) j.IsCount
    (fun n => j = .integer n.toNat) fun e => ¬ j.IsCount ∧ e = .misfit (.notCount what) where
  fits_iff := by
    rw [isCount_iff, asCount]
    cases j.toCount? <;> simp
  ok_iff n := by
    rw [← toCount?_eq_some_iff, asCount]
    cases j.toCount? <;> simp
  error_iff e := by
    rw [isCount_iff, asCount]
    cases j.toCount? <;> simp [eq_comm]

theorem reads_asText (what : String) (j : Json) : Reads (j.asText what) j.IsText (j = text ·)
    fun e => ¬ j.IsText ∧ e = .misfit (.notText what) where
  fits_iff := by cases j <;> simp [asText, IsText]
  ok_iff s := by cases j <;> simp [asText]
  error_iff e := by cases j <;> simp [asText, IsText, eq_comm]

theorem reads_asObject (what : String) (j : Json) : Reads (j.asObject what) j.IsObject
    (fun members => j = object members)
    fun e => ¬ j.IsObject ∧ e = .misfit (.notObject what) where
  fits_iff := by cases j <;> simp [asObject, IsObject]
  ok_iff members := by cases j <;> simp [asObject]
  error_iff e := by cases j <;> simp [asObject, IsObject, eq_comm]

end Json

end Keyset
