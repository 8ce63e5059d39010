import IniCompose.Fault

/-!
# Severities

How grave a fault is. The strictness of the policy runs from 0 to 5; a severity says from which
strictness on a fault is warned about, and from which on it is raised.
-/
namespace IniCompose

inductive Severity
  | warning
  | minor
  | serious
  | critical
  deriving DecidableEq

/-- What becomes of a fault: raised to the caller, warned about and passed over, or passed over
without a word. -/
inductive Decision
  | raise
  | warn
  | silent
  deriving DecidableEq

def Decision.label : Decision → String
  | raise => "raise"
  | warn => "warn"
  | silent => "silent"

namespace Severity

def label : Severity → String
  | warning => "warning"
  | minor => "minor"
  | serious => "serious"
  | critical => "critical"

/-- The least strictness at which a fault is raised. -/
def raisedFrom : Severity → Nat
  | warning => 5
  | minor => 4
  | serious => 3
  | critical => 0

/-- The least strictness at which a fault is at least warned about. -/
def warnedFrom : Severity → Nat
  | warning => 2
  | minor => 2
  | serious => 1
  | critical => 0

def decision (severity : Severity) (strictness : Nat) : Decision :=
  if severity.raisedFrom ≤ strictness then .raise
  else if severity.warnedFrom ≤ strictness then .warn
  else .silent

@[simp] theorem decision_critical (strictness : Nat) : critical.decision strictness = .raise := by
  simp [decision, raisedFrom]

theorem decision_eq_raise_iff {severity : Severity} {strictness : Nat} :
    severity.decision strictness = .raise ↔ severity.raisedFrom ≤ strictness := by
  unfold decision
  by_cases h : severity.raisedFrom ≤ strictness
  · simp [h]
  · simp only [h, if_false, iff_false]
    split <;> simp

/-- What is raised at one strictness is raised at every greater one. -/
theorem decision_raise_mono {severity : Severity} {m n : Nat} (hmn : m ≤ n)
    (h : severity.decision m = .raise) : severity.decision n = .raise :=
  decision_eq_raise_iff.2 (Nat.le_trans (decision_eq_raise_iff.1 h) hmn)

end Severity

/-- The severity of a class of faults. Cycles and ambiguous operations leave nothing sensible to go
on with; a malformed option can be passed over. -/
def Fault.severity : Fault → Severity
  | circularReference .. | ambiguousHandler .. => .critical
  | optionFormat .. => .minor
  | _ => .serious

end IniCompose
