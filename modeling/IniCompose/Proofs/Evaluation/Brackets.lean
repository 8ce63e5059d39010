import IniCompose.Proofs.Evaluation.Steps

/-!
# Relations kept across the brackets of an evaluation

What an evaluation reports is bracketed by the entries for the start and the end of a handler, and
by those for entering a section and leaving it with a state. A relation between the session before,
the journal and the session after holds of every evaluation, whatever the handlers do, if it holds
of the single events, and of what a handler or a section brackets together with the bracket.
-/
namespace IniCompose

/-- The event neither opens nor closes a bracket, and tells of no fault. -/
def Event.Plain : Event → Prop
  | .entry logged => logged.kind = .keyMatch
  | _ => True

theorem Policy.plain_announcement (policy : Policy) (severity : Severity) (fault : Fault) :
    ∀ event ∈ policy.announcement severity fault, event.Plain := by
  intro event hevent
  obtain ⟨verbosity, text, rfl⟩ := mem_announcement hevent
  trivial

namespace Setup

theorem plain_debugNotice (setup : Setup) (level : UInt8) (text : String) :
    ∀ event ∈ setup.debugNotice level text, event.Plain := by
  intro event hevent
  obtain ⟨verbosity, message, rfl⟩ := setup.mem_debugNotice hevent
  trivial

/-- A relation that holds of the events of an evaluation, of their succession and of brackets. -/
structure Bracketed (setup : Setup) (R : Session → Journal → Session → Prop) : Prop where
  refl : ∀ s, R s [] s
  trans : ∀ {s t u j k}, R s j t → R t k u → R s (j ++ k) u
  tell : ∀ s event, event.Plain → R s [event] s
  passOver : ∀ s severity decision fault, decision ≠ .raise →
    R s [.entry (Policy.faultEntry severity decision fault s.active.depth)] s
  raise : ∀ s severity fault,
    R s [.entry (Policy.faultEntry severity .raise fault s.active.depth)]
      { s with raised := some fault.message }
  handle : ∀ {s t j} (site : OptionSite) (status : String), R s j t →
    R s (.entry (site.startEntry s.active.depth) :: j ++
      [.entry (site.endEntry s.active.depth status)]) t
  /-- A section that is neither cached nor active is entered, and left with a fault. -/
  abandon : ∀ {budget s t name active j fault},
    (∀ name s, R s (setup.evaluateWithin budget name s).journal
      (setup.evaluateWithin budget name s).state) →
    s.cache.get? name = none → s.active.push name = .ok active →
    setup.evalBody (setup.evaluateWithin budget) name { s with active } = ⟨.error fault, t, j⟩ →
    R { s with active } j t →
    R s (setup.opening name active.depth ++ j) { t with active := t.active.pop name }
  /-- A section that is neither cached nor active is entered, and left with a state if it exists. -/
  complete : ∀ {budget s t name active j state?},
    (∀ name s, R s (setup.evaluateWithin budget name s).journal
      (setup.evaluateWithin budget name s).state) →
    s.cache.get? name = none → s.active.push name = .ok active →
    setup.evalBody (setup.evaluateWithin budget) name { s with active } = ⟨.ok state?, t, j⟩ →
    R { s with active } j t →
    R s (setup.opening name active.depth ++ j ++
        [.entry (exitEntry name active.depth (state?.getD ∅).size)])
      (leave name { t with active := t.active.pop name } state?)

namespace Bracketed

variable {setup : Setup} {R : Session → Journal → Session → Prop}

theorem plain (h : setup.Bracketed R) {journal : Journal} (s : Session)
    (hplain : ∀ event ∈ journal, event.Plain) : R s journal s := by
  induction journal with
  | nil => exact h.refl s
  | cons event rest ih =>
    have hfirst := h.tell s event (hplain event (by simp))
    exact h.trans hfirst (ih fun other hother => hplain other (by simp [hother]))

theorem report (h : setup.Bracketed R) (severity : Severity) (fault : Fault) (s : Session) :
    R s (setup.report severity fault s).journal (setup.report severity fault s).state := by
  rw [report_apply]
  by_cases hraise : setup.policy.decision severity = .raise
  · simp only [hraise, if_true]
    exact h.trans (h.raise s severity fault) (h.plain _ (Policy.plain_announcement _ _ _))
  · simp only [hraise, if_false]
    exact h.trans (h.passOver s severity _ fault hraise)
      (h.plain _ (Policy.plain_announcement _ _ _))

theorem settle (h : setup.Bracketed R) (site : OptionSite) (error : HandlerError) (s : Session) :
    R s (setup.settle site error s).journal (setup.settle site error s).state := by
  rw [settle_apply]
  split
  · exact h.refl s
  · exact h.report _ _ s

section

variable {nested : Evaluator}
  (hnested : ∀ name s, R s (nested name s).journal (nested name s).state)

include hnested

theorem answer (h : setup.Bracketed R) (request : Request) (s : Session × SectionState) :
    R s.1 (setup.answer nested request s).journal (setup.answer nested request s).state.1 := by
  cases request with
  | evaluate name => exact hnested name s.1
  | report severity fault => exact h.report severity fault s.1
  | record kind name details => exact h.tell s.1 _ trivial
  | debug level text =>
    simp only [Setup.answer, debug_apply]
    exact h.plain s.1 (setup.plain_debugNotice _ _)
  | note text => exact h.tell s.1 _ trivial
  | state | setState _ | depth | settings => exact h.refl s.1

/-- Induction on the program: one answer, then the rest. -/
theorem run (h : setup.Bracketed R) {α : Type} (program : Program α)
    (s : Session × SectionState) :
    R s.1 (setup.run nested program s).journal (setup.run nested program s).state.1 := by
  induction program generalizing s with
  | done a => exact h.refl s.1
  | fail error => exact h.refl s.1
  | ask request next ih =>
    have hanswer := h.answer hnested request s
    rw [run_ask, Journaled.bind_apply]
    cases (setup.answer nested request s).result with
    | ok a => exact h.trans hanswer (ih a _)
    | error e => exact hanswer

theorem dispatch (h : setup.Bracketed R) (handler : Handler) (site : OptionSite)
    (state : SectionState) (s : Session) :
    R s (setup.dispatch nested handler site state s).journal
      (setup.dispatch nested handler site state s).state := by
  have hrun := h.run hnested (handler site) (s, state)
  rw [dispatch_apply]
  dsimp only
  split
  · exact h.handle site "ok" hrun
  · next error _ =>
    have hsettled := h.trans (h.handle site "error" hrun) (h.settle site error _)
    simpa using hsettled

theorem evalOption (h : setup.Bracketed R) (sectionName stored value : String)
    (state : SectionState) (s : Session) :
    R s (setup.evalOption nested sectionName stored value state s).journal
      (setup.evalOption nested sectionName stored value state s).state := by
  cases hresolve : setup.registry.resolveKey sectionName stored with
  | error fault =>
    rw [evalOption_of_error setup hresolve]
    exact h.report _ _ s
  | ok resolved =>
    cases hhandler : (resolved.handler <|> setup.registry.generic) with
    | some handler =>
      rw [evalOption_of_handler setup hresolve hhandler]
      exact h.dispatch hnested _ _ _ s
    | none =>
      rw [evalOption_of_none setup hresolve hhandler]
      exact h.tell s _ rfl

theorem evalOptions (h : setup.Bracketed R) (sectionName : String)
    (options : List (String × String)) (state : SectionState) (s : Session) :
    R s (setup.evalOptions nested sectionName options state s).journal
      (setup.evalOptions nested sectionName options state s).state := by
  induction options generalizing state s with
  | nil => exact h.refl s
  | cons option rest ih =>
    have hfirst := h.evalOption hnested sectionName option.1 option.2 state s
    rw [Setup.evalOptions, Journaled.bind_apply]
    generalize setup.evalOption nested sectionName option.1 option.2 state s = first at hfirst ⊢
    obtain ⟨result, after, journal⟩ := first
    cases result with
    | ok next => exact h.trans hfirst (ih next after)
    | error fault => exact hfirst

theorem evalBody (h : setup.Bracketed R) (name : String) (s : Session) :
    R s (setup.evalBody nested name s).journal (setup.evalBody nested name s).state := by
  cases hoptions : setup.document.options? name with
  | some options =>
    rw [evalBody_of_some setup hoptions]
    exact h.evalOptions hnested name _ _ s
  | none =>
    rw [evalBody_of_none setup hoptions]
    exact h.report _ _ s

end

theorem visit (h : setup.Bracketed R) {budget : Nat}
    (hnested : ∀ name s, R s (setup.evaluateWithin budget name s).journal
      (setup.evaluateWithin budget name s).state) (name : String) (s : Session) :
    R s (setup.visit (setup.evaluateWithin budget) name s).journal
      (setup.visit (setup.evaluateWithin budget) name s).state := by
  cases hcache : s.cache.get? name with
  | some state =>
    rw [visit_of_cached setup hcache]
    exact h.plain s (setup.plain_debugNotice _ _)
  | none =>
    cases hpush : s.active.push name with
    | error fault =>
      rw [visit_of_active setup hcache hpush]
      exact h.trans (h.raise s fault.severity fault) (h.tell _ _ trivial)
    | ok active =>
      have hbody := h.evalBody hnested name { s with active }
      rw [visit_of_entered setup hcache hpush]
      generalize hwhole : setup.evalBody _ name { s with active } = body at hbody ⊢
      obtain ⟨_ | state?, t, journal⟩ := body
      · exact h.abandon hnested hcache hpush hwhole hbody
      · exact h.complete hnested hcache hpush hwhole hbody

/-- The principle: what holds of events and brackets holds of every evaluation. -/
theorem evaluateWithin (h : setup.Bracketed R) (budget : Nat) (name : String) (s : Session) :
    R s (setup.evaluateWithin budget name s).journal
      (setup.evaluateWithin budget name s).state := by
  induction budget generalizing name s with
  | zero => exact h.refl s
  | succ budget ih => exact h.visit ih name s

end Bracketed

end Setup

end IniCompose
