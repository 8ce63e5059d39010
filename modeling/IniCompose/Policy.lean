import IniCompose.Journal
import IniCompose.Severity

/-!
# Fault policies

A policy decides what becomes of a fault. Every fault goes on the record, whatever the decision; a
raised fault is handed back to the caller, a fault that is warned about is announced on the console
unless warnings are kept silent. The settings of an engine describe its policy.
-/
namespace IniCompose

/-- Strictness, and the form and audibility of warnings. -/
structure Policy where
  level : Fin 6 := 4
  compact : Bool := true
  silent : Bool := false
  deriving DecidableEq

namespace Policy

def maxLevel : Nat := 5

/-- The policy of a given strictness that is otherwise the default one. -/
def ofLevel (level : Nat) : Except Fault Policy :=
  if h : level < 6 then .ok { level := ⟨level, h⟩ }
  else .error (.invalidLevel level maxLevel)

def decision (policy : Policy) (severity : Severity) : Decision :=
  severity.decision policy.level

/-- The warning about a fault: one line, or a block that explains the strictness. -/
def warning (policy : Policy) (severity : Severity) (fault : Fault) : String :=
  if policy.compact then
    "EXCEPTION SKIPPED: [" ++ severity.label ++ "] " ++ fault.message
  else
    "EXCEPTION SKIPPED\n" ++
      "  severity : " ++ severity.label ++ "\n" ++
      "  fault    : " ++ fault.kind ++ "\n" ++
      "  message  : " ++ fault.message ++ "\n" ++
      "  level    : " ++ policy.level.val.repr ++
      " (raise this level to turn the fault into an error)"

/-- The trace entry of a fault. -/
def faultEntry (severity : Severity) (decision : Decision) (fault : Fault) (depth : Nat) :
    Trace.Entry where
  kind := .warning
  name := fault.kind
  depth := depth
  details := .ofList
    [("severity", severity.label), ("decision", decision.label), ("message", fault.message)]

variable {σ α : Type}

/-- Puts a fault on the record and raises it whatever the strictness. -/
def raise (severity : Severity) (fault : Fault) (depth : Nat) : Journaled σ Fault α := do
  .tell (.entry (faultEntry severity .raise fault depth))
  .tell (.message .debug
    ("raising " ++ fault.kind ++ " fault (" ++ severity.label ++ "): " ++ fault.message))
  throw fault

/-- Puts a fault on the record and does with it what the policy decides. -/
def report (policy : Policy) (severity : Severity) (fault : Fault) (depth : Nat) :
    Journaled σ Fault Unit :=
  match policy.decision severity with
  | .raise => raise severity fault depth
  | .warn => do
    .tell (.entry (faultEntry severity .warn fault depth))
    if policy.silent then pure ()
    else .tell (.message .warn (policy.warning severity fault))
  | .silent => .tell (.entry (faultEntry severity .silent fault depth))

end Policy

/-- The knobs of an engine: how talkative it is and how strict. The strictness is any byte here and
is checked when a policy is made of it. -/
structure Settings where
  debugLevel : UInt8 := 0
  level : UInt8 := 4
  compactWarnings : Bool := true
  silentWarnings : Bool := false
  deriving DecidableEq

/-- The policy the settings describe; a strictness beyond the greatest one is refused. -/
def Settings.policy (settings : Settings) : Except Fault Policy :=
  (Policy.ofLevel settings.level.toNat).map fun policy =>
    { policy with compact := settings.compactWarnings, silent := settings.silentWarnings }

end IniCompose
