import Chronicle.Json.Codec

/-!
# Problems of a machine definition

What can be wrong with a definition, and how it is worded. A definition with problems is refused with all of them at once.
-/

namespace Chronicle

/-- The name under which the transitions of the whole machine are reported. -/
def machineScope : String := "(machine)"

/-- One thing that is wrong with a machine definition. -/
inductive Problem where
  | missingInitial
  | missingContext
  | emptyEventKey (state : String)
  | emptyTarget (state event : String)
  | reservedEventKey (state event : String)
  | emptyActionName (state event : String)
  /-- The text of the definition could not be read. -/
  | unreadable (fault : Fault)
deriving DecidableEq, Repr

namespace Problem

/-- The state a problem is about. -/
def state? : Problem → Option String
  | .emptyEventKey state | .emptyTarget state _ | .reservedEventKey state _ | .emptyActionName state _ => some state
  | .missingInitial | .missingContext | .unreadable _ => none

/-- The event a problem is about. -/
def event? : Problem → Option String
  | .emptyTarget _ event | .reservedEventKey _ event | .emptyActionName _ event => some event
  | .missingInitial | .missingContext | .emptyEventKey _ | .unreadable _ => none

/-- The words that name a transition. -/
def transition (state event : String) : String := "Transition '" ++ event ++ "' from '" ++ state ++ "'"

/-- The wording of a problem. -/
def message : Problem → String
  | .missingInitial => "Initial state not specified. Call .initial(state) before .build()"
  | .missingContext => "Initial context not specified. Call .context(value) before .build()"
  | .emptyEventKey state => "State '" ++ state ++ "' has a transition with an empty event key"
  | .emptyTarget state event => transition state event ++ " has an empty target"
  | .reservedEventKey state event => transition state event ++ " uses the reserved override event key"
  | .emptyActionName state event => transition state event ++ " lists an empty action name"
  | .unreadable fault => "Machine definition could not be parsed: " ++ fault.message

/-- The wording of all problems of a definition. -/
def report (problems : List Problem) : String :=
  "Invalid machine definition: " ++ "; ".intercalate (problems.map message)

end Problem

end Chronicle
