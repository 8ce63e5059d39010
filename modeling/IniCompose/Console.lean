import IniCompose.Journal
import IniCompose.Text.Quoted

/-!
# Consoles

A console shows the messages and the trace entries of a journal, one line each, as far as they are
not more verbose than it wants. Trace entries are the most verbose of all.
-/
namespace IniCompose

namespace Verbosity

def rank : Verbosity → Nat
  | error => 1
  | warn => 2
  | info => 3
  | debug => 4
  | trace => 5

def label : Verbosity → String
  | error => "ERROR"
  | warn => "WARN "
  | info => "INFO "
  | debug => "DEBUG"
  | trace => "TRACE"

/-- The terminal code for the colour of a label. -/
def colourCode : Verbosity → Nat
  | error => 31
  | warn => 33
  | info => 32
  | debug => 2
  | trace => 2

end Verbosity

structure Console where
  /-- The most verbose messages that are shown; none shows nothing. -/
  limit : Option Verbosity
  coloured : Bool := true

namespace Console

/-- The most verbose messages that belong to a debug level. -/
def limitOf (debugLevel : Nat) : Verbosity :=
  match debugLevel with
  | 0 => .warn
  | 1 => .info
  | 2 => .debug
  | _ => .trace

/-- A limit by its name in any case, or by its rank. The empty name stands for errors; any other
name shows nothing. -/
def limitNamed (name : String) : Option Verbosity :=
  match name.map Char.toLower with
  | "error" | "1" | "" => some .error
  | "warn" | "2" => some .warn
  | "info" | "3" => some .info
  | "debug" | "4" => some .debug
  | "trace" | "5" => some .trace
  | _ => none

/-- Installs a console unless there is one already. Tells whether it did. -/
def install (console : Console) : Option Console → Bool × Option Console
  | none => (true, some console)
  | some installed => (false, some installed)

def shows (console : Console) (verbosity : Verbosity) : Bool :=
  console.limit.any fun limit => verbosity.rank ≤ limit.rank

def line (console : Console) (verbosity : Verbosity) (label text : String) : String :=
  if console.coloured then
    "\x1b[" ++ verbosity.colourCode.repr ++ "m" ++ label ++ "\x1b[0m " ++ text ++ "\n"
  else label ++ " " ++ text ++ "\n"

def entryText (entry : Trace.Entry) : String :=
  entry.kind.tag ++ " " ++ entry.name ++ " depth=" ++ entry.depth.repr ++ " " ++
    Text.inspectMap
      (entry.details.entries.map fun detail => (detail.1, Text.diagnosticQuoted detail.2))

/-- What the console shows of an event. -/
def eventText (console : Console) : Event → String
  | .message verbosity text =>
    if console.shows verbosity then console.line verbosity verbosity.label text else ""
  | .entry entry | .custom entry =>
    if console.shows .trace then console.line .trace "trace" (entryText entry) else ""
  | .note _ => ""

def text (console : Console) (journal : Journal) : String :=
  String.join (journal.map console.eventText)

end Console

end IniCompose
