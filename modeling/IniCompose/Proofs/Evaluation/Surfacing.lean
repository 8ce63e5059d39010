import IniCompose.Proofs.Evaluation.Kept
import IniCompose.Proofs.Registry.Handlers

/-!
# Raised faults surface

Where every handler fails with the faults that it is answered, nothing stops a fault that is raised:
it is what the run as a whole fails with. So a run that succeeds has raised nothing.
-/
namespace IniCompose

/-- The fault that was raised last, if one was, is the error. -/
def Outcome.Surfaces {σ ε α : Type} (fault? : ε → Option Fault) (outcome : Outcome σ ε α) : Prop :=
  ∀ text, outcome.journal.lastRaised = some text →
    ∃ error fault, outcome.result = .error error ∧ fault? error = some fault ∧
      fault.message = text

namespace Outcome

variable {σ ε α : Type} {fault? : ε → Option Fault} {outcome : Outcome σ ε α}

theorem surfaces_of_quiet (h : outcome.journal.lastRaised = none) : outcome.Surfaces fault? := by
  intro text htext
  simp [h] at htext

theorem Surfaces.lastRaised_eq_none (h : outcome.Surfaces fault?) {a : α}
    (hok : outcome.result = .ok a) : outcome.journal.lastRaised = none := by
  cases hraised : outcome.journal.lastRaised with
  | none => rfl
  | some text =>
    obtain ⟨error, fault, herror, -⟩ := h text hraised
    simp [hok] at herror

theorem Surfaces.after_quiet (h : outcome.Surfaces fault?) {journal : Journal}
    (hquiet : journal.lastRaised = none) : (outcome.after journal).Surfaces fault? := by
  intro text htext
  rw [journal_after, Journal.lastRaised_append, hquiet, Option.or_none] at htext
  exact h text htext

theorem Surfaces.map {β : Type} (h : outcome.Surfaces fault?) (f : α → β) :
    Surfaces fault? ⟨outcome.result.map f, outcome.state, outcome.journal⟩ := by
  intro text htext
  obtain ⟨error, fault, herror, hfault⟩ := h text htext
  exact ⟨error, fault, by simp [herror, Except.map], hfault⟩

theorem surfaces_bind {β : Type} {x : Journaled σ ε α} {next : α → Journaled σ ε β} {s : σ}
    (hx : (x s).Surfaces fault?) (hnext : ∀ a t, (next a t).Surfaces fault?) :
    ((x >>= next) s).Surfaces fault? := by
  rw [Journaled.bind_apply]
  cases hresult : (x s).result with
  | error error =>
    intro text htext
    obtain ⟨error', fault, herror, hfault⟩ := hx text htext
    cases hresult.symm.trans herror
    exact ⟨error, fault, rfl, hfault⟩
  | ok a => exact (hnext a _).after_quiet (hx.lastRaised_eq_none hresult)

end Outcome

namespace Setup

variable {setup : Setup}

theorem lastRaised_quiet {journal : Journal} (h : ∀ event ∈ journal, event.raised? = none) :
    journal.lastRaised = none := by
  simpa [Journal.lastRaised, List.getLast?_eq_none_iff, List.filterMap_eq_nil_iff] using h

theorem lastRaised_report (severity : Severity) (fault : Fault) (s : Session) :
    (setup.report severity fault s).journal.lastRaised =
      if setup.policy.decision severity = .raise then some fault.message else none := by
  rw [report_apply, Journal.lastRaised_cons, lastRaised_quiet (Kept.announcement_quiet _ _ _),
    Event.raised?_faultEntry, Option.none_or]

theorem report_surfaces (severity : Severity) (fault : Fault) (s : Session) :
    (setup.report severity fault s).Surfaces some := by
  intro text htext
  rw [lastRaised_report] at htext
  split at htext
  · next hraise =>
    refine ⟨fault, fault, ?_, rfl, Option.some.inj htext⟩
    rw [report_apply, if_pos hraise]
  · cases htext

/-! ## Handlers -/

variable {budget : Nat}

theorem exists_answer (nested : Evaluator) (request : Request) (s : Session × SectionState) :
    ∃ answer, (setup.answer nested request s).result = .ok answer := by
  cases request with
  | debug level text =>
    rw [answer, debug_apply]
    exact ⟨(), rfl⟩
  | _ => exact ⟨_, rfl⟩

/-- Induction on the program: whatever it is answered, it fails in the end. -/
theorem run_failsWith {nested : Evaluator} {α : Type} {program : Program α} {fault : Fault}
    (h : program.FailsWith fault) (s : Session × SectionState) :
    ∃ error, (setup.run nested program s).result = .error error ∧ error.fault? = some fault := by
  induction program generalizing s with
  | done a => exact absurd h id
  | fail error => exact ⟨error, rfl, h⟩
  | ask request next ih =>
    obtain ⟨answer, hanswer⟩ := setup.exists_answer nested request s
    rw [run_ask, Journaled.bind_apply, hanswer]
    exact ih answer (h answer) _

/-- A program that fails with every fault it is answered, after one answer. -/
theorem surfaces_after_answer {nested : Evaluator} {α β : Type} {asked : Outcome Session Fault β}
    (hasked : asked.Surfaces some) {next : Except Fault β → Program α}
    (hfails : ∀ fault, (next (.error fault)).FailsWith fault) {s : Session × SectionState}
    (hrest : (setup.run nested (next asked.result) s).Surfaces HandlerError.fault?) :
    ((setup.run nested (next asked.result) s).after asked.journal).Surfaces
      HandlerError.fault? := by
  intro text htext
  rw [Outcome.journal_after, Journal.lastRaised_append, Option.or_eq_some_iff] at htext
  obtain hrest' | ⟨-, hraised⟩ := htext
  · exact hrest text hrest'
  · obtain ⟨fault, _, hfault, heq, hmessage⟩ := hasked text hraised
    cases heq
    rw [hfault]
    obtain ⟨error, herror, hat⟩ := setup.run_failsWith (hfails fault) s
    exact ⟨error, fault, herror, hat, hmessage⟩

/-- Induction on the program: a fault that an answer raises is an answer that the program fails
with. -/
theorem run_surfaces {nested : Evaluator} (hnested : ∀ name s, (nested name s).Surfaces some)
    {α : Type} {program : Program α} (h : program.PassesOn) (s : Session × SectionState) :
    (setup.run nested program s).Surfaces HandlerError.fault? := by
  induction program generalizing s with
  | done a => exact Outcome.surfaces_of_quiet rfl
  | fail error => exact Outcome.surfaces_of_quiet rfl
  | ask request next ih =>
    have hrest (answer) (t) := ih answer (h.next answer) t
    rw [run_ask, Journaled.bind_apply]
    cases request with
    | evaluate name => exact surfaces_after_answer (hnested name s.1) h.1 (hrest _ _)
    | report severity fault =>
      exact surfaces_after_answer (setup.report_surfaces severity fault s.1) h.1 (hrest _ _)
    | debug level text =>
      rw [answer, debug_apply]
      exact (hrest _ _).after_quiet (lastRaised_quiet (Kept.debugNotice_quiet _ _ _))
    | state | setState _ | record _ _ _ | depth | settings | note _ =>
      exact (hrest _ _).after_quiet rfl

/-- An error that is settled ends the option if its fault is known. -/
theorem settle_of_known {site : OptionSite} {error : HandlerError} {fault : Fault} {s : Session}
    (hfault : error.fault? = some fault) (hraised : s.raised = some fault.message) :
    setup.settle site error s = ⟨.error fault, s, []⟩ := by
  rw [settle_apply, if_pos ⟨fault, hfault, hraised⟩]
  simp [faultOf, hfault]

theorem settle_surfaces (site : OptionSite) (error : HandlerError) (s : Session) :
    (setup.settle site error s).Surfaces some := by
  rw [settle_apply]
  split
  · exact Outcome.surfaces_of_quiet rfl
  · exact setup.report_surfaces _ _ s

/-! ## Options and sections -/

section

variable (hnested : ∀ name s, (setup.evaluateWithin budget name s).Surfaces some)

include hnested

/-- What the handler's requests have raised is the fault it fails with, and so known. -/
theorem dispatch_surfaces {handler : Handler} {site : OptionSite} (h : (handler site).PassesOn)
    (state : SectionState) (s : Session) :
    (setup.dispatch (setup.evaluateWithin budget) handler site state s).Surfaces some := by
  have hrun : (setup.run (setup.evaluateWithin budget) (handler site) (s, state)).Surfaces
      HandlerError.fault? := run_surfaces hnested h (s, state)
  have hraised := setup.bracketed_raised.run (setup.bracketed_raised.evaluateWithin budget)
    (handler site) (s, state)
  have hstart : Event.raised? (.entry (site.startEntry s.active.depth)) = none :=
    Event.raised?_eq_none_of_kind (by simp [OptionSite.startEntry])
  have hend (status : String) :
      Event.raised? (.entry (site.endEntry s.active.depth status)) = none :=
    Event.raised?_eq_none_of_kind (by simp [OptionSite.endEntry])
  rw [dispatch_apply]
  dsimp only
  generalize setup.run (setup.evaluateWithin budget) (handler site) (s, state) = outcome
    at hrun hraised ⊢
  obtain ⟨result, ⟨t, left⟩, journal⟩ := outcome
  cases result with
  | ok _ =>
    have hquiet := hrun.lastRaised_eq_none rfl
    exact Outcome.surfaces_of_quiet (by simp [Journal.lastRaised_cons, hstart, hend, hquiet])
  | error error =>
    intro text htext
    have hlast : (setup.settle site error t).journal.lastRaised.or journal.lastRaised =
        some text := by
      simpa [Journal.lastRaised_cons, hstart, hend] using htext
    dsimp only
    obtain hsettled | ⟨-, hasked⟩ := Option.or_eq_some_iff.1 hlast
    · obtain ⟨fault, _, hresult, hfault⟩ := setup.settle_surfaces site error t text hsettled
      exact ⟨fault, _, by simp [hresult, Except.map], hfault⟩
    · obtain ⟨_, fault, heq, hfault, hmessage⟩ := hrun text hasked
      cases heq
      have hknown : t.raised = some fault.message := by simpa [hasked, hmessage] using hraised
      exact ⟨fault, fault, by simp [settle_of_known hfault hknown, Except.map], rfl, hmessage⟩

theorem evalOption_surfaces (hpass : setup.registry.PassesOn) (sectionName stored value : String)
    (state : SectionState) (s : Session) :
    (setup.evalOption (setup.evaluateWithin budget) sectionName stored value state s).Surfaces
      some := by
  cases hresolve : setup.registry.resolveKey sectionName stored with
  | error fault =>
    rw [evalOption_of_error setup hresolve]
    exact (setup.report_surfaces _ fault s).map fun _ => state
  | ok resolved =>
    cases hhandler : (resolved.handler <|> setup.registry.generic) with
    | some handler =>
      rw [evalOption_of_handler setup hresolve hhandler]
      have hheld := Registry.holds_of_resolveKey hresolve hhandler
      exact dispatch_surfaces hnested (hpass handler hheld _) state s
    | none =>
      rw [evalOption_of_none setup hresolve hhandler]
      exact Outcome.surfaces_of_quiet (by simp [Event.raised?_eq_none_of_kind])

theorem evalOptions_surfaces (hpass : setup.registry.PassesOn) (sectionName : String)
    (options : List (String × String)) (state : SectionState) (s : Session) :
    (setup.evalOptions (setup.evaluateWithin budget) sectionName options state s).Surfaces
      some := by
  induction options generalizing state s with
  | nil => exact Outcome.surfaces_of_quiet rfl
  | cons option rest ih =>
    have hfirst := evalOption_surfaces hnested hpass sectionName option.1 option.2 state s
    exact Outcome.surfaces_bind hfirst ih

theorem evalBody_surfaces (hpass : setup.registry.PassesOn) (name : String) (s : Session) :
    (setup.evalBody (setup.evaluateWithin budget) name s).Surfaces some := by
  cases hoptions : setup.document.options? name with
  | some options =>
    rw [evalBody_of_some setup hoptions]
    exact (evalOptions_surfaces hnested hpass name options.entries ∅ s).map some
  | none =>
    rw [evalBody_of_none setup hoptions]
    exact (setup.report_surfaces _ _ s).map fun _ => none

theorem visit_surfaces (hpass : setup.registry.PassesOn) (name : String) (s : Session) :
    (setup.visit (setup.evaluateWithin budget) name s).Surfaces some := by
  cases hcache : s.cache.get? name with
  | some state =>
    rw [visit_of_cached setup hcache]
    exact Outcome.surfaces_of_quiet (lastRaised_quiet (Kept.debugNotice_quiet _ _ _))
  | none =>
    cases hpush : s.active.push name with
    | error fault =>
      rw [visit_of_active setup hcache hpush]
      intro text htext
      refine ⟨fault, fault, rfl, rfl, ?_⟩
      simpa [Journal.lastRaised_cons, Event.raised?_faultEntry] using htext
    | ok active =>
      have hopening := lastRaised_quiet (Kept.opening_quiet setup name active.depth)
      have hbody := evalBody_surfaces hnested hpass name { s with active }
      rw [visit_of_entered setup hcache hpush]
      dsimp only
      generalize setup.evalBody _ name { s with active } = body at hbody ⊢
      obtain ⟨result, t, journal⟩ := body
      cases result with
      | error fault => exact (hbody.map fun state? => state?.getD ∅).after_quiet hopening
      | ok state? =>
        have hquiet := hbody.lastRaised_eq_none rfl
        refine Outcome.surfaces_of_quiet ?_
        simp [hopening, hquiet, Event.raised?_eq_none_of_kind, exitEntry]

end

/-- The fault that a run raises last is the one it fails with. -/
theorem evaluateWithin_surfaces (hpass : setup.registry.PassesOn) (budget : Nat) (name : String)
    (s : Session) : (setup.evaluateWithin budget name s).Surfaces some := by
  induction budget generalizing name s with
  | zero => exact Outcome.surfaces_of_quiet rfl
  | succ budget ih => exact visit_surfaces ih hpass name s

end Setup

end IniCompose
