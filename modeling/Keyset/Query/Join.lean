import Keyset.Fault
import Keyset.Query.Clause
import Keyset.Text.Split

/-!
# Joins

An inner join names a table and pairs of columns. A pair is written `left:right`, where the left
column belongs to the table that is asked and the right one to the table that is joined.

* `Join.splitPair?_eq_some_iff` : a text is a pair iff it is two names, neither of them empty and
  neither with a colon, around one colon.
-/

namespace Keyset

open Fragment

/-- An inner join with another table. -/
structure Join where
  /-- The table that is joined. -/
  target : String
  /-- The left and right columns that have to be equal. -/
  pairs : List (String × String)
deriving DecidableEq

/-- A request for a join, with its pairs as they are written. -/
structure JoinRequest where
  /-- The table to join. -/
  table : String := ""
  /-- The column pairs. -/
  pairs : List String := []
  /-- What is asked of the joined rows. -/
  query : Query := {}
deriving DecidableEq

namespace Join

/-- The two names around the only colon of a text. -/
def splitPair? (s : List Char) : Option (List Char × List Char) := do
  let (left, right) ← Text.splitOnce? ':' s
  if left ≠ [] ∧ right ≠ [] ∧ ':' ∉ right then some (left, right) else none

theorem splitPair?_eq_some_iff {s left right : List Char} :
    splitPair? s = some (left, right) ↔
      s = left ++ ':' :: right ∧ left ≠ [] ∧ right ≠ [] ∧ ':' ∉ left ∧ ':' ∉ right := by
  constructor
  · intro h
    obtain ⟨⟨l, r⟩, hs, hlr⟩ := Option.bind_eq_some_iff.1 h
    obtain ⟨hs, hl⟩ := Text.splitOnce?_eq_some_iff.1 hs
    dsimp only at hlr
    split at hlr
    · rename_i hc
      obtain ⟨rfl, rfl⟩ := Prod.mk.inj (Option.some.inj hlr)
      exact ⟨hs, hc.1, hc.2.1, hl, hc.2.2⟩
    · simp at hlr
  · rintro ⟨hs, hl, hr, hnl, hnr⟩
    exact Option.bind_eq_some_iff.2
      ⟨(left, right), Text.splitOnce?_eq_some_iff.2 ⟨hs, hnl⟩, if_pos ⟨hl, hr, hnr⟩⟩

/-- Reads a column pair. -/
def readPair (pair : String) : Except Fault (String × String) :=
  match splitPair? pair.toList with
  | some (left, right) => .ok (String.ofList left, String.ofList right)
  | none => .error (.malformedPair pair)

/-- Reads a join. The table is looked at first, then the number of pairs, then the pairs in their
order. -/
def read (target : String) (pairs : List String) : Except Fault Join :=
  if target = "" then .error .noJoinTable
  else if pairs = [] then .error .noPairs
  else (pairs.mapM readPair).map fun ps => ⟨target, ps⟩

/-- The equation of one pair. -/
def equation (source target : String) (pair : String × String) : Fragment :=
  (single (.qualified source pair.1)).push (.token .eq) ++ single (.qualified target pair.2)

/-- The clause that joins a table with `source`. -/
def fragment (j : Join) (source : String) : Fragment :=
  tokens [.INNER, .JOIN] ++ (ident j.target).push (.token .ON) ++
    conjunction (j.pairs.map (equation source j.target))

end Join

end Keyset
