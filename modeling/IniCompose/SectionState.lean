import IniCompose.OrderedMap
import IniCompose.Text.Quoted

/-!
# Section states

What evaluating a section yields: options, of which the last assignment counts, and actions, which
handlers append for others to replay in order.
-/
namespace IniCompose

/-- An operation to be replayed, with the section its option is written in. -/
structure Action where
  operation : String
  parameter : String
  value : String
  sectionName : String
  deriving DecidableEq

structure SectionState where
  options : OrderedMap String := ∅
  actions : List Action := []
  deriving DecidableEq

namespace SectionState

def empty : SectionState := {}

instance : EmptyCollection SectionState := ⟨empty⟩
instance : Inhabited SectionState := ⟨empty⟩

def get? (state : SectionState) (key : String) : Option String := state.options.get? key

def contains (state : SectionState) (key : String) : Bool := state.options.contains key

def size (state : SectionState) : Nat := state.options.size

def isEmpty (state : SectionState) : Bool := state.options.isEmpty && state.actions.isEmpty

def set (state : SectionState) (key value : String) : SectionState :=
  { state with options := state.options.insert key value }

def remove (state : SectionState) (key : String) : SectionState :=
  { state with options := state.options.erase key }

def addAction (state : SectionState) (action : Action) : SectionState :=
  { state with actions := state.actions ++ [action] }

/-- Applies `other` on top: its options are assigned in its order, its actions appended. -/
def merge (state other : SectionState) : SectionState where
  options := state.options.insertAll other.options.entries
  actions := state.actions ++ other.actions

/-- Whether two states agree on the options, in whatever order, and on the actions in order. -/
def agrees (state other : SectionState) : Bool :=
  state.options.sameEntries other.options && state.actions == other.actions

def json (state : SectionState) : String :=
  Text.jsonObject
    [("options", Text.jsonTexts state.options.entries),
     ("actions", Text.jsonArray (state.actions.map fun action =>
        Text.jsonTexts
          [("operation", action.operation), ("parameter", action.parameter),
           ("value", action.value), ("section", action.sectionName)]))]

end SectionState

end IniCompose
