/-!
# Faults

Everything that can go wrong between reading a configuration and writing it, as causes. The texts
are in `Fault.message`; the causes below the message, outermost first, are in `Fault.causes`.
Whether a fault stops an evaluation is not decided here but by the policy.
-/
namespace IniCompose

/-- Why a file could not be read or a destination not written. -/
inductive IoError
  | absent
  | notDirectory
  | isDirectory
  | nameTooLong
  | nulInName
  | invalidUtf8
  | other (text : String)
  deriving DecidableEq

def IoError.message : IoError → String
  | .absent => "No such file or directory (os error 2)"
  | .notDirectory => "Not a directory (os error 20)"
  | .isDirectory => "Is a directory (os error 21)"
  | .nameTooLong => "File name too long (os error 36)"
  | .nulInName => "file name contained an unexpected NUL byte"
  | .invalidUtf8 => "stream did not contain valid UTF-8"
  | .other text => text

inductive Fault
  /-- A section is requested while it is being evaluated; the chain lists the active sections,
  outermost first, and ends with the requested one. -/
  | circularReference (sectionName : String) (chain : List String)
  | sectionNotFound (sectionName : String)
  /-- An option key cannot be split into operation and parameter. -/
  | optionFormat (sectionName key detail : String)
  /-- The operation of an option is registered more than once. -/
  | ambiguousHandler (sectionName key operation : String) (count : Nat)
  /-- A handler failed for a reason of its own, which may have deeper causes. -/
  | handlerExecution (sectionName key value reason : String) (deeper : List String)
  | invalidLevel (level max : Nat)
  | invalidSyntax (origin : String) (line : Nat) (detail : String)
  | unreadable (path : String) (error : IoError)
  | invalidSettings (origin reason : String)
  | unwritable (error : IoError)
  deriving DecidableEq

namespace Fault

/-- The stable short name of a class of faults. -/
def kind : Fault → String
  | circularReference .. => "circular-reference"
  | sectionNotFound .. => "section-not-found"
  | optionFormat .. => "option-format"
  | ambiguousHandler .. => "ambiguous-handler"
  | handlerExecution .. => "handler-execution"
  | invalidLevel .. => "invalid-exception-control-level"
  | invalidSyntax .. => "invalid-syntax"
  | unreadable .. => "io"
  | invalidSettings .. => "settings"
  | unwritable .. => "write"

def message : Fault → String
  | circularReference sectionName chain =>
    "Circular reference detected while parsing [" ++ sectionName ++ "]: " ++
      " -> ".intercalate chain
  | sectionNotFound sectionName => "Section [" ++ sectionName ++ "] not found"
  | optionFormat sectionName key detail =>
    "Malformed option '" ++ key ++ "' in section [" ++ sectionName ++ "]: " ++ detail
  | ambiguousHandler sectionName key operation count =>
    "Operation '" ++ operation ++ "' of option '" ++ key ++ "' in section [" ++ sectionName ++
      "] matches " ++ count.repr ++ " registered handlers"
  | handlerExecution sectionName key value reason _ =>
    "Handler for option '" ++ key ++ "' in section [" ++ sectionName ++ "] failed (value: '" ++
      value ++ "'): " ++ reason
  | invalidLevel level max =>
    "Invalid exception control level " ++ level.repr ++ ": must be between 0 and " ++ max.repr
  | invalidSyntax origin line detail =>
    "Invalid INI syntax in " ++ origin ++ " at line " ++ line.repr ++ ": " ++ detail
  | unreadable path error => "IO error reading " ++ path ++ ": " ++ error.message
  | invalidSettings origin reason => "Invalid settings in " ++ origin ++ ": " ++ reason
  | unwritable error => "IO error writing configuration: " ++ error.message

/-- The errors a fault wraps, outermost first. -/
def causes : Fault → List String
  | handlerExecution _ _ _ reason deeper => reason :: deeper
  | unreadable _ error => [error.message]
  | invalidSettings _ reason => [reason]
  | unwritable error => [error.message]
  | _ => []

end Fault

end IniCompose
