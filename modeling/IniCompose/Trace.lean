import IniCompose.OrderedMap
import IniCompose.Text.Quoted

/-!
# Traces

The chronological record of an evaluation: sections entered and left, handlers started and ended,
options assigned, faults. An entry carries the number of sections active at that moment and a few
details. A trace can be written as indented text and as lines of JSON.
-/
namespace IniCompose

namespace Trace

inductive Kind
  | sectionEntry
  | sectionExit
  | handlerEntry
  | handlerExit
  | keyMatch
  | warning
  deriving DecidableEq

namespace Kind

def label : Kind → String
  | sectionEntry => "section-entry"
  | sectionExit => "section-exit"
  | handlerEntry => "handler-entry"
  | handlerExit => "handler-exit"
  | keyMatch => "key-match"
  | warning => "warning"

/-- The word that opens a rendered line. -/
def tag : Kind → String
  | sectionEntry => "SECTION_ENTER"
  | sectionExit => "SECTION_EXIT"
  | handlerEntry => "HANDLER_ENTER"
  | handlerExit => "HANDLER_EXIT"
  | keyMatch => "KEY_MATCH"
  | warning => "WARNING"

end Kind

structure Entry where
  kind : Kind
  /-- The section, operation, key or fault class that the entry is about. -/
  name : String
  /-- The number of active sections. -/
  depth : Nat
  details : OrderedMap String
  deriving DecidableEq

namespace Entry

/-- The width of the tag column. -/
def tagWidth : Nat := 15

/-- A line of text: the tag in its column, the name indented by two spaces for each active section
beyond the first, and the details. -/
def render (entry : Entry) : String :=
  .ofList (entry.kind.tag.toList.rightpad tagWidth ' ') ++ " " ++
    .ofList (List.replicate (2 * (entry.depth - 1)) ' ') ++ entry.name ++
    String.join (entry.details.entries.map fun detail => " " ++ detail.1 ++ "=" ++ detail.2) ++ "\n"

def json (entry : Entry) : String :=
  Text.jsonObject
    [("kind", Text.jsonQuoted entry.kind.label), ("name", Text.jsonQuoted entry.name),
     ("depth", entry.depth.repr), ("metadata", Text.jsonTexts entry.details.entries)]

end Entry

end Trace

abbrev Trace := List Trace.Entry

namespace Trace

def filterKind (trace : Trace) (kind : Kind) : Trace :=
  trace.filter fun entry => entry.kind = kind

/-- The recorded faults. -/
def faults (trace : Trace) : Trace := trace.filterKind .warning

def render (trace : Trace) : String := String.join (trace.map Entry.render)

def jsonLines (trace : Trace) : String :=
  String.join (trace.map fun entry => entry.json ++ "\n")

end Trace

end IniCompose
