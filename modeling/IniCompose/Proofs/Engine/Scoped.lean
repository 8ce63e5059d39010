import IniCompose.Proofs.Engine.Recorded
import IniCompose.Proofs.Evaluation.Unwinding

/-!
# The trace of a run is a log of brackets

Whatever handlers do, those that are started are ended. Where they hand on what they are answered,
sections and handlers nest in the trace and the depths are those of the sections; a run that fails
breaks off at its fault, and the handlers that are open then end with an error.
-/
namespace IniCompose

theorem Request.unwarning_of_unrecorded (request : Request) (h : request.Unrecorded) :
    request.Unwarning := by
  cases request with
  | record kind name details => exact absurd h id
  | _ => trivial

namespace Engine

variable {engine : Engine} {result : Except Fault Unit} {trace : Trace}

/-- A run starts where nothing is open. -/
theorem stands_run (engine : Engine) :
    engine.toSetup.Stands (engine.document.size + 1) [] { cache := engine.cache } :=
  ⟨rfl, Setup.room_of_inactive rfl, rfl⟩

/-- Of handlers that put no entries on the record themselves, every one that is started is ended in
the trace of a run. If they fail with the faults that they are answered, a run that succeeds closes
every bracket, innermost first and at the same depth, with every entry at the depth of the sections
open there; and a run that fails does so up to the entry of its fault, the only raised one, which is
followed by the ends, with an error, of the handlers open there, and by nothing else. -/
theorem trace_well_bracketed (hunrecorded : engine.registry.Only Request.Unrecorded)
    (h : engine.Ran result trace) :
    trace.handlers.Balanced ∧
    (engine.registry.PassesOn →
      (result = .ok () → trace.scan [] = some []) ∧
      ∀ fault, result = .error fault → ∃ (before : Trace) (entry : Trace.Entry) (opened : Trace),
        trace = before ++ entry :: opened.unwind ∧ trace.raised = [entry] ∧ entry.Shows fault ∧
        before.scan [] = some opened ∧ entry.depth = opened.sections) := by
  obtain ⟨names, rfl, rfl⟩ := h.exists_evaluateEach
  have htrace := Setup.engineTrace_eq_trace
    (Setup.reports_evaluateEach hunrecorded names { cache := engine.cache })
  rw [← htrace]
  refine ⟨Setup.bracketed_balanced.evaluateEach names _, fun hpass => ?_⟩
  have hcontinues := Setup.continues_evaluateEach hpass names engine.stands_run
  refine ⟨hcontinues.scan_eq, fun fault herror => ?_⟩
  have hunwarning := hunrecorded.mono Request.unwarning_of_unrecorded
  obtain ⟨shown, honly, -, -⟩ := Setup.exists_last_shows
    (Setup.reports_evaluateEach hunwarning names { cache := engine.cache })
    (Setup.evaluateEach_conclusive hpass hunwarning names _)
    (Setup.lastRaised_evaluateEach rfl herror)
  have hreads := hcontinues.reads
  rw [herror] at hreads
  rw [← htrace] at honly
  generalize Journal.engineTrace _ = trace at hreads honly ⊢
  cases hreads with
  | @error _ severity before opened depth hscan hdepth =>
    have hshows := Setup.shows_faultEntry severity fault depth
    have hmem : Policy.faultEntry severity .raise fault depth ∈ Trace.raised
        (before ++ Policy.faultEntry severity .raise fault depth :: opened.unwind) :=
      List.mem_filter.2 ⟨by simp, decide_eq_true hshows.isRaised⟩
    rw [List.append_nil] at hscan hdepth
    rw [honly, List.mem_singleton] at hmem
    exact ⟨before, _, opened, rfl, hmem ▸ honly, hshows, hscan, hdepth⟩

/-- A section that imports one with an import of an absent section breaks off with two handlers
open. -/
theorem trace_well_bracketed_importingFaulty :
    ∃ engine trace, ofDocument importingFaulty .standard { level := 3 } = .ok engine ∧
      engine.Ran (.error (.sectionNotFound "Ghost")) trace ∧
      engine.registry.Only Request.Unrecorded ∧ engine.registry.PassesOn ∧
      trace.handlers.Balanced ∧ ∃ (before : Trace) (entry : Trace.Entry) (opened : Trace),
        trace = before ++ entry :: opened.unwind ∧ trace.raised = [entry] ∧
        entry.Shows (.sectionNotFound "Ghost") ∧ before.scan [] = some opened ∧
        entry.depth = opened.sections := by
  have hpass := Registry.passesOn_standard
  have hunrecorded := unrecorded_standard
  have hengine : ofDocument importingFaulty .standard { level := 3 } = .ok _ := rfl
  have hran : Ran _ (.error (.sectionNotFound "Ghost")) _ :=
    @Ran.evaluate ⟨⟨importingFaulty, .standard, { level := 3 }, _, rfl⟩, ∅, []⟩ "A" rfl
  obtain ⟨hbalanced, hends⟩ := trace_well_bracketed hunrecorded hran
  exact ⟨_, _, hengine, hran, hunrecorded, hpass, hbalanced, (hends hpass).2 _ rfl⟩

end Engine

end IniCompose
