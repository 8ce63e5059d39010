import IniCompose.Proofs.Engine.Steps
import IniCompose.Proofs.Evaluation.Conclusive
import IniCompose.Proofs.Evaluation.Reported
import IniCompose.Proofs.Fault.Text

/-!
# Failures are on the record

A run that fails has its fault on the record as a raised one, whatever handlers have raised and
recovered from on the way. Where handlers hand on what they are answered it is there once, and
nothing about any other fault comes after it.
-/
namespace IniCompose

namespace Trace

/-- The entry tells that a fault was raised. -/
def Entry.IsRaised (entry : Entry) : Prop :=
  entry.kind = .warning ∧ entry.details.get? "decision" = some Decision.raise.label

instance : DecidablePred Entry.IsRaised := fun entry =>
  inferInstanceAs (Decidable (entry.kind = .warning ∧ _))

/-- The entry tells that the fault was raised: its class and its text. -/
structure Entry.Shows (entry : Entry) (fault : Fault) : Prop where
  isRaised : entry.IsRaised
  name : entry.name = fault.kind
  message : entry.details.get? "message" = some fault.message

/-- The recorded faults that were raised. -/
def raised (trace : Trace) : Trace := trace.filter fun entry => entry.IsRaised

theorem raised_append (first second : Trace) :
    raised (first ++ second) = first.raised ++ second.raised := by
  simp [raised]

theorem faults_append (first second : Trace) :
    faults (first ++ second) = first.faults ++ second.faults := by
  simp [faults, filterKind]

end Trace

namespace Journal

variable {journal first second : Journal}

theorem mem_trace {entry : Trace.Entry} :
    entry ∈ journal.trace ↔ .entry entry ∈ journal ∨ .custom entry ∈ journal := by
  simp only [trace, List.mem_filterMap]
  constructor
  · rintro ⟨event, hevent, heq⟩
    cases event <;> simp_all
  · rintro (hentry | hcustom)
    · exact ⟨_, hentry, rfl⟩
    · exact ⟨_, hcustom, rfl⟩

theorem Clear.faults (h : journal.Clear) : journal.trace.faults = [] := by
  refine List.filter_eq_nil_iff.2 fun entry hentry hwarns => ?_
  have hkind : entry.kind = .warning := of_decide_eq_true hwarns
  obtain hentry | hcustom := mem_trace.1 hentry
  · exact h _ hentry hkind
  · exact h _ hcustom hkind

theorem Clear.raised (h : journal.Clear) : journal.trace.raised = [] := by
  refine List.filter_eq_nil_iff.2 fun entry hentry hraised => ?_
  have hkind : entry.kind = .warning := (of_decide_eq_true hraised).1
  obtain hentry | hcustom := mem_trace.1 hentry
  · exact h _ hentry hkind
  · exact h _ hcustom hkind

end Journal

namespace Setup

variable {setup : Setup} {allowed : Request → Prop}

theorem isRaised_faultEntry {severity : Severity} {decision : Decision} {fault : Fault}
    {depth : Nat} :
    (Policy.faultEntry severity decision fault depth).IsRaised ↔ decision = .raise := by
  cases decision <;>
    simp [Trace.Entry.IsRaised, Policy.faultEntry, OrderedMap.ofList, Decision.label]

theorem shows_faultEntry (severity : Severity) (fault : Fault) (depth : Nat) :
    (Policy.faultEntry severity .raise fault depth).Shows fault := by
  refine ⟨isRaised_faultEntry.2 rfl, rfl, ?_⟩
  simp [Policy.faultEntry, OrderedMap.ofList]

/-- An event that tells the text of a raised fault is the entry of a fault with this text, and so
tells the class of every fault with this text. -/
theorem Reports.exists_shows {event : Event} (h : setup.Reports allowed event) {fault : Fault}
    (hraised : event.raised? = some fault.message) :
    ∃ entry, event = .entry entry ∧ entry.Shows fault := by
  obtain ⟨severity, other, depth, rfl, hmessage⟩ := h.exists_fault hraised
  obtain ⟨hentry, hname, htext⟩ := shows_faultEntry severity other depth
  exact ⟨_, rfl, hentry, hname.trans (Fault.kind_eq_of_message_eq hmessage),
    htext.trans (congrArg some hmessage)⟩

/-- Where nothing is raised, and handlers put no entries about faults on the record, no entry tells
of a raised fault. -/
theorem raised_trace_of_quiet {journal : Journal}
    (h : ∀ event ∈ journal, setup.Reports Request.Unwarning event)
    (hquiet : journal.lastRaised = none) : journal.trace.raised = [] := by
  refine List.filter_eq_nil_iff.2 fun entry hentry hraised => ?_
  replace hraised : entry.IsRaised := of_decide_eq_true hraised
  obtain hentry | hcustom := Journal.mem_trace.1 hentry
  · have hnone := Journal.lastRaised_eq_none_iff.1 hquiet _ hentry
    cases h _ hentry with
    | step hkind => exact hkind hraised.1
    | fault severity fault depth =>
      rw [Event.raised?_faultEntry, if_pos (isRaised_faultEntry.1 hraised)] at hnone
      cases hnone
  · cases h _ hcustom with
    | custom depth hkind => exact hkind hraised.1

/-- What a journal says about the fault that a run fails with. -/
theorem exists_shows_of_lastRaised {journal : Journal}
    (h : ∀ event ∈ journal, setup.Reports allowed event) {fault : Fault}
    (hraised : journal.lastRaised = some fault.message) :
    ∃ entry ∈ journal.trace, entry.Shows fault := by
  obtain ⟨event, hevent, htext⟩ := List.mem_filterMap.1 (List.mem_of_getLast? hraised)
  obtain ⟨entry, rfl, hshows⟩ := (h event hevent).exists_shows htext
  exact ⟨entry, Journal.mem_trace.2 (.inl hevent), hshows⟩

/-- In a journal that ends with the raised fault, its entry is the only one of a raised fault and
the last one of any fault. -/
theorem exists_last_shows {journal : Journal}
    (h : ∀ event ∈ journal, setup.Reports Request.Unwarning event) (hlast : journal.Conclusive)
    {fault : Fault} (hraised : journal.lastRaised = some fault.message) :
    ∃ entry, journal.trace.raised = [entry] ∧ journal.trace.faults.getLast? = some entry ∧
      entry.Shows fault := by
  obtain ⟨before, event, after, rfl, htext, hquiet, hclear⟩ := hlast.exists_split hraised
  obtain ⟨entry, rfl, hshows⟩ := (h event (by simp)).exists_shows htext
  have hbefore : before.trace.raised = [] :=
    raised_trace_of_quiet (fun other hother => h other (by simp [hother])) hquiet
  have htrace : Journal.trace (before ++ .entry entry :: after) =
      before.trace ++ ([entry] ++ after.trace) := Journal.trace_append _ _
  refine ⟨entry, ?_, ?_, hshows⟩
  · rw [htrace, Trace.raised_append, Trace.raised_append, hbefore, hclear.raised]
    simp [Trace.raised, hshows.isRaised]
  · rw [htrace, Trace.faults_append, Trace.faults_append, hclear.faults]
    simp [Trace.faults, Trace.filterKind, hshows.isRaised.1]

end Setup

namespace Engine

/-- The result and the trace of a run of the engine: the evaluation of a section that is not kept,
or that of every section. -/
inductive Ran (engine : Engine) : Except Fault Unit → Trace → Prop
  | evaluate {name} : engine.cache.get? name = none →
    Ran engine ((evaluate name engine).result.map fun _ => ()) (evaluate name engine).state.trace
  | evaluateAll : Ran engine (evaluateAll engine).result (evaluateAll engine).state.trace

variable {engine : Engine} {result : Except Fault Unit} {trace : Trace}

theorem Ran.exists_evaluateEach (h : engine.Ran result trace) :
    ∃ names, result = (engine.evaluateEach names { cache := engine.cache }).result ∧
      trace = (engine.evaluateEach names { cache := engine.cache }).journal.trace := by
  cases h with
  | @evaluate name hcache =>
    refine ⟨[name], ?_⟩
    rw [evaluate_of_uncached hcache, Setup.evaluateEach_cons]
    dsimp only [inSession]
    cases (engine.toSetup.evaluate name { cache := engine.cache }).result with
    | ok state => exact ⟨rfl, by simp [Setup.evaluateEach, Journaled.pure_apply]⟩
    | error fault => exact ⟨rfl, rfl⟩
  | evaluateAll => exact ⟨engine.document.names, rfl, rfl⟩

/-- A run that fails has an entry in its trace that shows its fault as raised. If the handlers fail
with the faults that they are answered and put no entries about faults on the record themselves,
that is the only entry about a raised fault and the last one about any fault, and a run that
succeeds has none. -/
theorem fault_on_record (h : engine.Ran result trace) :
    (∀ fault, result = .error fault → ∃ entry ∈ trace, entry.Shows fault) ∧
    (engine.registry.PassesOn → engine.registry.Only Request.Unwarning →
      (∀ fault, result = .error fault → ∃ entry, trace.raised = [entry] ∧
        trace.faults.getLast? = some entry ∧ entry.Shows fault) ∧
      (result = .ok () → trace.raised = [])) := by
  obtain ⟨names, rfl, rfl⟩ := h.exists_evaluateEach
  have hraised (fault : Fault)
      (herror : (engine.evaluateEach names { cache := engine.cache }).result = .error fault) :
      (engine.evaluateEach names { cache := engine.cache }).journal.lastRaised =
        some fault.message := by
    have hkept := engine.kept_raised.evaluateEach names { cache := engine.cache }
    rw [Setup.raised_of_evaluateEach herror] at hkept
    simpa using hkept.symm
  refine ⟨fun fault herror => ?_, fun hpass hunwarning => ⟨fun fault herror => ?_, fun hok => ?_⟩⟩
  · have hreports := Setup.reports_evaluateEach engine.registry.only_true names
      { cache := engine.cache }
    exact Setup.exists_shows_of_lastRaised hreports (hraised fault herror)
  · exact Setup.exists_last_shows (Setup.reports_evaluateEach hunwarning names _)
      (Setup.evaluateEach_conclusive hpass hunwarning names _) (hraised fault herror)
  · exact Setup.raised_trace_of_quiet (Setup.reports_evaluateEach hunwarning names _)
      ((Setup.evaluateEach_surfaces hpass names _).lastRaised_eq_none hok)

/-- A section that imports one with a malformed option and an import of an absent section. -/
def importingFaulty : Document :=
  ⟨.ofList [("A", .ofList [("use B", "")]), ("B", .ofList [("use \"C", ""), ("use Ghost", "")])]⟩

/-- At strictness 3 the malformed option is warned about, and the absent section is raised once,
though two handlers fail with it. -/
theorem fault_on_record_importingFaulty :
    ∃ engine trace entry, ofDocument importingFaulty .standard { level := 3 } = .ok engine ∧
      engine.Ran (.error (.sectionNotFound "Ghost")) trace ∧
      engine.registry.PassesOn ∧ engine.registry.Only Request.Unwarning ∧
      trace.faults.length = 2 ∧ trace.raised = [entry] ∧ trace.faults.getLast? = some entry ∧
      entry.Shows (.sectionNotFound "Ghost") := by
  have hpass := Registry.passesOn_standard
  have hunwarning : Registry.standard.Only Request.Unwarning := by
    apply Registry.only_standard <;> simp [Request.Unwarning]
  have hengine : ofDocument importingFaulty .standard { level := 3 } = .ok _ := rfl
  have hran : Ran _ (.error (.sectionNotFound "Ghost")) _ :=
    @Ran.evaluate ⟨⟨importingFaulty, .standard, { level := 3 }, _, rfl⟩, ∅, []⟩ "A" rfl
  obtain ⟨entry, honly, hlast, hshows⟩ :=
    ((fault_on_record hran).2 hpass hunwarning).1 (.sectionNotFound "Ghost") rfl
  exact ⟨_, _, entry, hengine, hran, hpass, hunwarning, by decide, honly, hlast, hshows⟩

end Engine

end IniCompose
