import IniCompose.Proofs.Evaluation.Brackets
import IniCompose.Proofs.Evaluation.Reported
import IniCompose.Proofs.Trace.Scopes

/-!
# Entries of the engine

What the parts of an evaluation add to the trace, apart from what handlers put there. The handlers
that are started are ended, whatever they and the sections they request come to.
-/
namespace IniCompose

/-- The requests that put no entries on the record by themselves. -/
def Request.Unrecorded : Request → Prop
  | .record _ _ _ => False
  | _ => True

theorem unrecorded_standard : Registry.standard.Only Request.Unrecorded := by
  apply Registry.only_standard <;> simp [Request.Unrecorded]

namespace Journal

@[simp] theorem engineTrace_entry_cons (entry : Trace.Entry) (rest : Journal) :
    engineTrace (.entry entry :: rest) = entry :: rest.engineTrace := rfl

@[simp] theorem engineTrace_message_cons (verbosity : Verbosity) (text : String) (rest : Journal) :
    engineTrace (.message verbosity text :: rest) = rest.engineTrace := rfl

theorem mem_engineTrace {journal : Journal} {entry : Trace.Entry} :
    entry ∈ journal.engineTrace ↔ .entry entry ∈ journal := by
  simp only [engineTrace, List.mem_filterMap]
  constructor
  · rintro ⟨event, hevent, heq⟩
    cases event <;> simp_all
  · exact fun hentry => ⟨_, hentry, rfl⟩

theorem engineTrace_eq_nil {journal : Journal}
    (h : ∀ event ∈ journal, ∃ verbosity text, event = .message verbosity text) :
    journal.engineTrace = [] := by
  refine List.filterMap_eq_nil_iff.2 fun event hevent => ?_
  obtain ⟨verbosity, text, rfl⟩ := h event hevent
  rfl

end Journal

namespace Setup

variable {setup : Setup}

@[simp] theorem engineTrace_announcement (policy : Policy) (severity : Severity) (fault : Fault) :
    (policy.announcement severity fault).engineTrace = [] :=
  Journal.engineTrace_eq_nil fun _ => Policy.mem_announcement

@[simp] theorem engineTrace_debugNotice (level : UInt8) (text : String) :
    (setup.debugNotice level text).engineTrace = [] :=
  Journal.engineTrace_eq_nil fun _ => setup.mem_debugNotice

@[simp] theorem engineTrace_opening (name : String) (depth : Nat) :
    (setup.opening name depth).engineTrace = [⟨.sectionEntry, name, depth, .ofList []⟩] := by
  simp [opening]

@[simp] theorem engineTrace_report (severity : Severity) (fault : Fault) (s : Session) :
    (setup.report severity fault s).journal.engineTrace =
      [Policy.faultEntry severity (setup.policy.decision severity) fault s.active.depth] := by
  simp [report_apply]

/-- Where handlers put no entries on the record, the trace is what the engine records. -/
theorem engineTrace_eq_trace {journal : Journal}
    (h : ∀ event ∈ journal, setup.Reports Request.Unrecorded event) :
    journal.engineTrace = journal.trace := by
  refine List.filterMap_congr fun event hevent => ?_
  cases h event hevent with
  | custom _ hallowed => exact absurd hallowed id
  | _ => rfl

/-! ## Balance -/

open Trace

theorem balanced_single {entry : Entry} (hstart : entry.kind ≠ .handlerEntry)
    (hfinish : entry.kind ≠ .handlerExit) : (handlers [entry]).Balanced := by
  rw [handlers_cons_of_ne hstart hfinish]
  exact .nil

/-- A handler that is started is ended, with what is inside balanced. -/
theorem balanced_handle {journal : Journal} (h : journal.engineTrace.handlers.Balanced)
    (site : OptionSite) (depth : Nat) (status : String) :
    (Journal.engineTrace (.entry (site.startEntry depth) :: journal ++
      [.entry (site.endEntry depth status)])).handlers.Balanced := by
  have hbracket : Balanced (site.startEntry depth :: journal.engineTrace.handlers ++
      [site.endEntry depth status]) := .bracket rfl rfl rfl rfl h
  rw [← handlers_bracket (by rfl) (by rfl)] at hbracket
  simpa using hbracket

theorem bracketed_balanced :
    setup.Bracketed fun _ journal _ => journal.engineTrace.handlers.Balanced where
  refl _ := .nil
  trans h h' := by
    rw [Journal.engineTrace_append, handlers_append]
    exact h.append h'
  tell _ event hplain := by
    cases event with
    | entry logged =>
      have hkind : logged.kind = .keyMatch := hplain
      exact balanced_single (by simp [hkind]) (by simp [hkind])
    | custom _ | message _ _ | note _ => exact .nil
  passOver _ _ _ _ _ := balanced_single (by simp [Policy.faultEntry]) (by simp [Policy.faultEntry])
  raise _ _ _ := balanced_single (by simp [Policy.faultEntry]) (by simp [Policy.faultEntry])
  handle site status h := balanced_handle h site _ status
  abandon _ _ _ _ h := by
    rw [Journal.engineTrace_append, handlers_append, engineTrace_opening]
    exact (balanced_single (by simp) (by simp)).append h
  complete _ _ _ _ h := by
    simp only [Journal.engineTrace_append, handlers_append, engineTrace_opening]
    exact ((balanced_single (by simp) (by simp)).append h).append
      (balanced_single (by simp [exitEntry]) (by simp [exitEntry]))

end Setup

end IniCompose
