/-!
# Faults

What can go wrong with a request, as causes; `Fault.message` holds the wording. A fault is a
*request* fault if it is found before any statement is run.
-/

namespace Keyset

/-- How a part of a request differs from its documented shape. -/
inductive Misfit
  /-- The named part is not an object. -/
  | notObject (what : String)
  /-- The named part is not a count. -/
  | notCount (what : String)
  /-- The named part is not a text. -/
  | notText (what : String)
  /-- The value given for the field is a list or an object. -/
  | notLiteral (field : String)
  /-- The object of operators given for the field has no member. -/
  | noOperators (field : String)
  /-- The column pairs of a join are neither a list nor a text. -/
  | notPairs
  /-- A cause that is told in words. -/
  | told (detail : String)
deriving DecidableEq

/-- What is told of a statement that failed to run. -/
inductive Failure
  /-- The executor tells it. -/
  | told (detail : String)
  /-- The engine of the database tells it. -/
  | engine (detail : String)
deriving DecidableEq

instance : Coe String Failure := ⟨.told⟩

/-- A cause of failure. -/
inductive Fault
  /-- The table has no name. -/
  | unnamedTable
  /-- A part of the request has the wrong shape. -/
  | misfit (cause : Misfit)
  /-- The field is compared by something that is no operator. -/
  | unknownOperator (field : String) (operator : String)
  /-- A join without column pairs. -/
  | noPairs
  /-- A column pair of a join that is not two names with one colon between them. -/
  | malformedPair (pair : String)
  /-- A join without a table to join. -/
  | noJoinTable
  /-- A row of a page without the column of the key. -/
  | missingKey (column : String)
  /-- A text that spells no value. -/
  | badCursor (text : String)
  /-- The store failed to run a statement. -/
  | execution (failure : Failure)
  /-- The store failed to map its data. -/
  | mapping (detail : String)
  /-- The settings could not be read. -/
  | settings (detail : String)
deriving DecidableEq

namespace Misfit

/-- The wording of a misfit. -/
def message : Misfit → String
  | notObject what => what ++ " must be an object"
  | notCount what => what ++ " must be a non-negative integer"
  | notText what => what ++ " must be a string"
  | notLiteral field => "value for `" ++ field ++ "` must be a literal"
  | noOperators field => "operator object for `" ++ field ++ "` is empty"
  | notPairs => "inner must be a list of `left:right` pairs"
  | told detail => detail

end Misfit

/-- The wording of a failure. -/
def Failure.message : Failure → String
  | told detail => "Execution error: " ++ detail
  | engine detail => "Rusqlite error: " ++ detail

namespace Fault

/-- The wording of a fault. -/
def message : Fault → String
  | unnamedTable => "Model name must be provided"
  | misfit cause => "Invalid params: " ++ cause.message
  | unknownOperator field operator =>
    "Unknown operator `" ++ operator ++ "` on field `" ++ field ++ "`"
  | noPairs => "Relation columns must be provided"
  | malformedPair pair => "Malformed join pair `" ++ pair ++ "`, expected `left:right`"
  | noJoinTable => "Relation table must be provided"
  | missingKey column => "Row is missing cursor key `" ++ column ++ "`"
  | badCursor text => "Invalid cursor: " ++ text
  | execution failure => failure.message
  | mapping detail => "Mapping error: " ++ detail
  | settings detail => "Config error: " ++ detail

/-- The fault lies in the request and not in what the store answered. -/
def isRequest : Fault → Bool
  | unnamedTable | misfit _ | unknownOperator _ _ | noPairs | malformedPair _ | noJoinTable
  | badCursor _ => true
  | missingKey _ | execution _ | mapping _ | settings _ => false

end Fault

end Keyset
