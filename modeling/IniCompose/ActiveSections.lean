import IniCompose.Fault

/-!
# Active sections

The sections that are being evaluated, each requested by the one before it. No section can be active
twice: a second request would never end.
-/
namespace IniCompose

structure ActiveSections where
  /-- Innermost section first. -/
  stack : List String := []
  nodup : stack.Nodup := by simp
  deriving DecidableEq

namespace ActiveSections

def empty : ActiveSections := {}

instance : EmptyCollection ActiveSections := ⟨empty⟩

/-- Outermost section first. -/
def names (active : ActiveSections) : List String := active.stack.reverse

def depth (active : ActiveSections) : Nat := active.stack.length

def isEmpty (active : ActiveSections) : Bool := active.stack.isEmpty

def contains (active : ActiveSections) (name : String) : Bool := active.stack.contains name

/-- Makes `name` the innermost section, or tells the cycle that this would close. -/
def push (active : ActiveSections) (name : String) : Except Fault ActiveSections :=
  if h : name ∈ active.stack then .error (.circularReference name (active.names ++ [name]))
  else .ok ⟨name :: active.stack, List.nodup_cons.2 ⟨h, active.nodup⟩⟩

/-- Leaves `name` if it is the innermost section. -/
def pop? (active : ActiveSections) (name : String) : Option ActiveSections :=
  match active with
  | ⟨[], _⟩ => none
  | ⟨top :: rest, h⟩ => if top = name then some ⟨rest, (List.nodup_cons.1 h).2⟩ else none

/-- Leaves `name`; nothing happens if it is not the innermost section. -/
def pop (active : ActiveSections) (name : String) : ActiveSections :=
  (active.pop? name).getD active

theorem push_eq_ok_iff {active pushed : ActiveSections} {name : String} :
    active.push name = .ok pushed ↔ name ∉ active.stack ∧ pushed.stack = name :: active.stack := by
  unfold push
  split
  · simp_all
  · rename_i h
    cases pushed
    simp [h, eq_comm]

theorem push_eq_error {active : ActiveSections} {name : String} {fault : Fault}
    (h : active.push name = .error fault) :
    name ∈ active.stack ∧ fault = .circularReference name (active.names ++ [name]) := by
  unfold push at h
  split at h
  · next hmem => exact ⟨hmem, (Except.error.inj h).symm⟩
  · cases h

theorem pop_push {active pushed : ActiveSections} {name : String}
    (h : active.push name = .ok pushed) : pushed.pop name = active := by
  obtain ⟨_, hstack⟩ := push_eq_ok_iff.1 h
  obtain ⟨stack, _⟩ := pushed
  cases hstack
  simp [pop, pop?]

end ActiveSections

end IniCompose
