import Keyset.Proofs.Json.Reads
import Keyset.Proofs.Sql.Composition
import Keyset.Proofs.Sql.Conditions
import Keyset.Query.Join

/-!
# The column pairs of a join

A column pair is written as two names that are not empty around one colon.  The clause of a join
shows its pairs, so the pairs as they were written can be told from the clause.

* `Join.reads_pair` : one pair.
* `Join.reads_pairs` : a join, with the first fault that it has.
* `Join.columnPairs_fragment` : the pairs in the clause.
* `Join.read_iff` : **what is read as a join, which fault everything else has, and the clause.**
-/

namespace Keyset

open Fragment Json

namespace Join

/-! ### Reading -/

/-- The text of a column pair. -/
def pairText (pair : String × String) : String := pair.1 ++ ":" ++ pair.2

/-- The two names can be told from the text of the pair. -/
structure IsPlain (pair : String × String) : Prop where
  /-- The left column has a name. -/
  left_ne : pair.1 ≠ ""
  /-- The right column has a name. -/
  right_ne : pair.2 ≠ ""
  /-- No colon is in the name of the left column. -/
  left_colon : ':' ∉ pair.1.toList
  /-- No colon is in the name of the right column. -/
  right_colon : ':' ∉ pair.2.toList

/-- The text is that of a column pair: there is one colon in it, and a name on both sides. -/
def IsPair (s : String) : Prop := ∃ pair, IsPlain pair ∧ s = pairText pair

theorem splitPair?_toList_iff {s : String} {pair : String × String} :
    splitPair? s.toList = some (pair.1.toList, pair.2.toList) ↔
      IsPlain pair ∧ s = pairText pair := by
  rw [splitPair?_eq_some_iff, pairText, ← String.toList_inj]
  simp only [String.toList_append, ne_eq, String.toList_eq_nil_iff]
  constructor
  · rintro ⟨hs, hleft, hright, hleft', hright'⟩
    exact ⟨⟨hleft, hright, hleft', hright'⟩, by simpa using hs⟩
  · rintro ⟨⟨hleft, hright, hleft', hright'⟩, hs⟩
    exact ⟨by simpa using hs, hleft, hright, hleft', hright'⟩

theorem isSome_splitPair?_iff {s : String} : (splitPair? s.toList).isSome = true ↔ IsPair s := by
  rw [Option.isSome_iff_exists]
  constructor
  · rintro ⟨⟨left, right⟩, hsplit⟩
    exact ⟨(String.ofList left, String.ofList right),
      splitPair?_toList_iff.1 (by simpa using hsplit)⟩
  · rintro ⟨pair, hpair⟩
    exact ⟨_, splitPair?_toList_iff.2 hpair⟩

instance (s : String) : Decidable (IsPair s) := decidable_of_iff _ isSome_splitPair?_iff

theorem reads_pair (s : String) :
    Reads (readPair s) (IsPair s) (fun pair => IsPlain pair ∧ s = pairText pair)
      (fun e => ¬ IsPair s ∧ e = .malformedPair s) := by
  unfold readPair
  split
  next left right hsplit =>
    have hpair : IsPair s := isSome_splitPair?_iff.1 (Option.isSome_of_eq_some hsplit)
    refine (Reads.ok _).congr (iff_of_true trivial hpair) (fun pair => ?_) fun e =>
      iff_of_false id fun h => h.1 hpair
    rw [← splitPair?_toList_iff, hsplit, Option.some.injEq, Prod.mk.injEq, Prod.ext_iff]
    simp only [← String.toList_inj, String.toList_ofList]
    exact and_congr eq_comm eq_comm
  next hsplit =>
    have hpair : ¬ IsPair s := fun h => by simp [← isSome_splitPair?_iff, hsplit] at h
    refine (Reads.error _).congr (iff_of_false id hpair) (fun pair => ?_) fun e =>
      (and_iff_right hpair).symm
    exact iff_of_false id fun h => hpair ⟨pair, h⟩

theorem forall₂_pairText_iff {texts : List String} {pairs : List (String × String)} :
    List.Forall₂ (fun s pair => IsPlain pair ∧ s = pairText pair) texts pairs ↔
      (∀ pair ∈ pairs, IsPlain pair) ∧ texts = pairs.map pairText := by
  induction pairs generalizing texts with
  | nil => simp
  | cons pair pairs ih =>
    simp only [List.forall₂_cons_right_iff, ih, List.forall_mem_cons, List.map_cons]
    constructor
    · rintro ⟨s, texts, ⟨hplain, rfl⟩, ⟨hplains, rfl⟩, rfl⟩
      exact ⟨⟨hplain, hplains⟩, rfl⟩
    · rintro ⟨⟨hplain, hplains⟩, rfl⟩
      exact ⟨_, _, ⟨hplain, rfl⟩, ⟨hplains, rfl⟩, rfl⟩

/-- **A join is read**: the table is looked at first, then whether there are pairs, then the pairs
in their order. -/
theorem reads_pairs (target : String) (texts : List String) :
    Reads (read target texts) (target ≠ "" ∧ texts ≠ [] ∧ ∀ s ∈ texts, IsPair s)
      (fun j => target ≠ "" ∧ texts ≠ [] ∧ j.target = target ∧ (∀ pair ∈ j.pairs, IsPlain pair) ∧
        texts = j.pairs.map pairText)
      (fun e => target = "" ∧ e = .noJoinTable ∨
        target ≠ "" ∧ texts = [] ∧ e = .noPairs ∨
        target ≠ "" ∧
          FirstFault IsPair (fun s e => ¬ IsPair s ∧ e = .malformedPair s) texts e) := by
  unfold read
  split
  next htarget =>
    exact (Reads.error _).congr (by simp [htarget]) (by simp [htarget]) (by simp [htarget])
  next htarget =>
    split
    next htexts =>
      refine (Reads.error _).congr (by simp [htexts]) (by simp [htexts]) fun e => ?_
      simp [htexts, htarget, not_firstFault_nil]
    next htexts =>
      refine ((Reads.mapM reads_pair texts).map _).congr ?_ (fun j => ?_) fun e => ?_
      · simp [htarget, htexts]
      · rw [and_iff_right htarget, and_iff_right htexts]
        simp only [forall₂_pairText_iff]
        constructor
        · rintro ⟨pairs, hpairs, rfl⟩
          exact ⟨rfl, hpairs⟩
        · rintro ⟨rfl, hpairs⟩
          exact ⟨j.pairs, hpairs, rfl⟩
      · simp [htarget, htexts]

/-! ### The clause -/

/-- The pairs of columns that are set equal. -/
def columnPairs : List Piece → List (String × String)
  | .qualified _ left :: .token .eq :: .qualified _ right :: rest =>
    (left, right) :: columnPairs rest
  | _ :: rest => columnPairs rest
  | [] => []

/-- **The clause of a join** holds one equation for every pair. -/
theorem pieces_fragment (j : Join) (source : String) :
    (j.fragment source).pieces =
      [.token .INNER, .token .JOIN, .ident j.target, .token .ON] ++
        List.intercalate [.token .AND] (j.pairs.map fun pair =>
          [.qualified source pair.1, .token .eq, .qualified j.target pair.2]) := by
  have hne : ∀ a ∈ j.pairs.map (equation source j.target), a.isEmpty = false := by
    intro a ha
    obtain ⟨pair, -, rfl⟩ := List.mem_map.1 ha
    rfl
  rw [fragment, pieces_append, conjunction_of_forall hne, pieces_join, List.map_map]
  rfl

theorem columnPairs_fragment (j : Join) (source : String) :
    columnPairs (j.fragment source).pieces = j.pairs := by
  rw [pieces_fragment]
  simp only [List.cons_append, List.nil_append, columnPairs]
  generalize j.pairs = pairs
  induction pairs with
  | nil => rfl
  | cons pair pairs ih =>
    cases pairs with
    | nil => rfl
    | cons next pairs =>
      rw [List.map_cons] at ih
      rw [List.map_cons, List.map_cons, List.intercalate_cons_cons]
      simp only [List.cons_append, List.nil_append, columnPairs, ih]

/-- **What is read as a join.**  The fault of everything else is that of the table, of the list, or
of the first text that is no pair.  The clause of a join holds one equation for every pair in their
order, and shows the pairs and so the texts that they were written as. -/
theorem read_iff (target : String) (texts : List String) :
    (read target texts = .error .noJoinTable ↔ target = "") ∧
      (read target texts = .error .noPairs ↔ target ≠ "" ∧ texts = []) ∧
      (∀ s, read target texts = .error (.malformedPair s) ↔ target ≠ "" ∧
        ∃ before after, texts = before ++ s :: after ∧ (∀ p ∈ before, IsPair p) ∧ ¬ IsPair s) ∧
      ((∃ j, read target texts = .ok j) ↔ target ≠ "" ∧ texts ≠ [] ∧ ∀ s ∈ texts, IsPair s) ∧
      ∀ j, read target texts = .ok j → j.target = target ∧ (∀ pair ∈ j.pairs, IsPlain pair) ∧
        ∀ source, (j.fragment source).pieces =
            [.token .INNER, .token .JOIN, .ident target, .token .ON] ++
              List.intercalate [.token .AND] (j.pairs.map fun pair =>
                [.qualified source pair.1, .token .eq, .qualified target pair.2]) ∧
          columnPairs (j.fragment source).pieces = j.pairs ∧
          (columnPairs (j.fragment source).pieces).map pairText = texts := by
  have hread := reads_pairs target texts
  refine ⟨?_, ?_, fun s => ?_, hread.fits_iff, fun j hj => ?_⟩
  · rw [hread.error_iff]
    simp [FirstFault]
  · rw [hread.error_iff]
    simp [FirstFault]
  · rw [hread.error_iff]
    simp [FirstFault]
  · obtain ⟨-, -, rfl, hplain, hpairs⟩ := (hread.ok_iff j).1 hj
    refine ⟨rfl, hplain, fun source => ?_⟩
    refine ⟨pieces_fragment j source, columnPairs_fragment j source, ?_⟩
    rw [columnPairs_fragment, hpairs]

/-- Two pairs, one of them with a point and a blank, and pairs around a text that is none. -/
theorem read_iff_two :
    (columnPairs ((Join.mk "u" [("a", "b"), ("c.d", " ")]).fragment "t").pieces).map pairText =
        ["a:b", "c.d: "] ∧
      read "u" ["a:b", "a:b:c", ":"] = .error (.malformedPair "a:b:c") := by
  have hread : read "u" ["a:b", "c.d: "] = .ok ⟨"u", [("a", "b"), ("c.d", " ")]⟩ := by decide
  obtain ⟨-, -, -, -, hclause⟩ := read_iff "u" ["a:b", "c.d: "]
  obtain ⟨-, -, hfault, -, -⟩ := read_iff "u" ["a:b", "a:b:c", ":"]
  exact ⟨((hclause _ hread).2.2 "t").2.2,
    (hfault "a:b:c").2 ⟨by decide, ["a:b"], [":"], rfl, by decide, by decide⟩⟩

end Join

end Keyset
