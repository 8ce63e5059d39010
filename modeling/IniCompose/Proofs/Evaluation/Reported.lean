import IniCompose.Proofs.Engine.Steps
import IniCompose.Proofs.Registry.Handlers

/-!
# What an evaluation reports

An event in the journal of an evaluation is a message, something that a handler asked for, an entry
about a step, or a fault with the decision of the policy about it. So the raised faults of a journal
are just the faults that its entries show as raised.
-/
namespace IniCompose

namespace Setup

/-- What is reported if handlers make no requests but the allowed ones. -/
inductive Reports (setup : Setup) (allowed : Request → Prop) : Event → Prop
  | message (verbosity text) : Reports setup allowed (.message verbosity text)
  | note (text) : Reports setup allowed (.note text)
  | custom {kind name details} (depth) : allowed (.record kind name details) →
    Reports setup allowed (.custom ⟨kind, name, depth, .ofList details⟩)
  | step {entry} : entry.kind ≠ .warning → Reports setup allowed (.entry entry)
  | fault (severity fault depth) :
    Reports setup allowed
      (.entry (Policy.faultEntry severity (setup.policy.decision severity) fault depth))

variable {setup : Setup} {allowed : Request → Prop}

/-- An event that tells the text of a raised fault is the entry of a fault with this text. -/
theorem Reports.exists_fault {event : Event} (h : setup.Reports allowed event) {text : String}
    (hraised : event.raised? = some text) :
    ∃ severity fault depth, event = .entry (Policy.faultEntry severity .raise fault depth) ∧
      fault.message = text := by
  cases h with
  | message _ _ | note _ | custom _ _ => cases hraised
  | step hkind =>
    rw [Event.raised?_eq_none_of_kind hkind] at hraised
    cases hraised
  | fault severity fault depth =>
    rw [Event.raised?_faultEntry] at hraised
    split at hraised
    · next hdecision =>
      rw [hdecision]
      exact ⟨severity, fault, depth, rfl, Option.some.inj hraised⟩
    · cases hraised

theorem reports_announcement (policy : Policy) (severity : Severity) (fault : Fault) :
    ∀ event ∈ policy.announcement severity fault, setup.Reports allowed event := by
  intro event hevent
  obtain ⟨verbosity, text, rfl⟩ := Policy.mem_announcement hevent
  exact .message verbosity text

theorem reports_debugNotice (level : UInt8) (text : String) :
    ∀ event ∈ setup.debugNotice level text, setup.Reports allowed event := by
  intro event hevent
  obtain ⟨verbosity, message, rfl⟩ := setup.mem_debugNotice hevent
  exact .message verbosity message

theorem reports_opening (name : String) (depth : Nat) :
    ∀ event ∈ setup.opening name depth, setup.Reports allowed event :=
  List.forall_mem_cons.2 ⟨.step (by simp), reports_debugNotice _ _⟩

theorem reports_report (severity : Severity) (fault : Fault) (s : Session) :
    ∀ event ∈ (setup.report severity fault s).journal, setup.Reports allowed event := by
  rw [report_apply]
  exact List.forall_mem_cons.2 ⟨.fault severity fault _, reports_announcement _ _ _⟩

theorem reports_settle (site : OptionSite) (error : HandlerError) (s : Session) :
    ∀ event ∈ (setup.settle site error s).journal, setup.Reports allowed event := by
  rw [settle_apply]
  split
  · exact List.forall_mem_nil _
  · exact reports_report _ _ s

section

variable {nested : Evaluator}
  (hnested : ∀ name s, ∀ event ∈ (nested name s).journal, setup.Reports allowed event)

include hnested

theorem reports_answer {request : Request} (hallowed : allowed request)
    (s : Session × SectionState) :
    ∀ event ∈ (setup.answer nested request s).journal, setup.Reports allowed event := by
  cases request with
  | evaluate name => exact hnested name s.1
  | report severity fault => exact reports_report severity fault s.1
  | record kind name details => exact List.forall_mem_singleton.2 (.custom _ hallowed)
  | debug level text =>
    rw [answer, debug_apply]
    exact reports_debugNotice level text
  | note text => exact List.forall_mem_singleton.2 (.note text)
  | state | setState _ | depth | settings => exact List.forall_mem_nil _

/-- Induction on the program: one answer, then the rest. -/
theorem reports_run {α : Type} {program : Program α} (honly : program.Only allowed)
    (s : Session × SectionState) :
    ∀ event ∈ (setup.run nested program s).journal, setup.Reports allowed event := by
  induction program generalizing s with
  | done a => exact List.forall_mem_nil _
  | fail error => exact List.forall_mem_nil _
  | ask request next ih =>
    have hanswer := reports_answer hnested honly.1 s
    rw [run_ask, Journaled.bind_apply]
    cases (setup.answer nested request s).result with
    | ok answer => exact List.forall_mem_append.2 ⟨hanswer, ih answer (honly.2 answer) _⟩
    | error error => exact hanswer

theorem reports_dispatch {handler : Handler} {site : OptionSite}
    (honly : (handler site).Only allowed) (state : SectionState) (s : Session) :
    ∀ event ∈ (setup.dispatch nested handler site state s).journal,
      setup.Reports allowed event := by
  have hstart : setup.Reports allowed (.entry (site.startEntry s.active.depth)) :=
    .step (by simp [OptionSite.startEntry])
  have hend (status : String) :
      setup.Reports allowed (.entry (site.endEntry s.active.depth status)) :=
    .step (by simp [OptionSite.endEntry])
  have hrun := reports_run hnested honly (s, state)
  rw [dispatch_apply]
  dsimp only
  split
  · exact List.forall_mem_append.2
      ⟨List.forall_mem_cons.2 ⟨hstart, hrun⟩, List.forall_mem_singleton.2 (hend "ok")⟩
  · exact List.forall_mem_append.2
      ⟨List.forall_mem_cons.2 ⟨hstart, hrun⟩,
        List.forall_mem_cons.2 ⟨hend "error", reports_settle _ _ _⟩⟩

variable (honly : setup.registry.Only allowed)

include honly

theorem reports_evalOption (sectionName stored value : String) (state : SectionState)
    (s : Session) :
    ∀ event ∈ (setup.evalOption nested sectionName stored value state s).journal,
      setup.Reports allowed event := by
  cases hresolve : setup.registry.resolveKey sectionName stored with
  | error fault =>
    rw [evalOption_of_error setup hresolve]
    exact reports_report _ _ s
  | ok resolved =>
    cases hhandler : (resolved.handler <|> setup.registry.generic) with
    | some handler =>
      have hheld := Registry.holds_of_resolveKey hresolve hhandler
      rw [evalOption_of_handler setup hresolve hhandler]
      exact reports_dispatch hnested (honly handler hheld _) state s
    | none =>
      rw [evalOption_of_none setup hresolve hhandler]
      exact List.forall_mem_singleton.2 (.step (by simp))

theorem reports_evalOptions (sectionName : String) (options : List (String × String))
    (state : SectionState) (s : Session) :
    ∀ event ∈ (setup.evalOptions nested sectionName options state s).journal,
      setup.Reports allowed event := by
  induction options generalizing state s with
  | nil => exact List.forall_mem_nil _
  | cons option rest ih =>
    have hfirst := reports_evalOption hnested honly sectionName option.1 option.2 state s
    rw [evalOptions, Journaled.bind_apply]
    cases (setup.evalOption nested sectionName option.1 option.2 state s).result with
    | ok next => exact List.forall_mem_append.2 ⟨hfirst, ih _ _⟩
    | error fault =>
      dsimp only
      exact hfirst

theorem reports_evalBody (name : String) (s : Session) :
    ∀ event ∈ (setup.evalBody nested name s).journal, setup.Reports allowed event := by
  cases hoptions : setup.document.options? name with
  | some options =>
    rw [evalBody_of_some setup hoptions]
    exact reports_evalOptions hnested honly name _ _ s
  | none =>
    rw [evalBody_of_none setup hoptions]
    exact reports_report _ _ s

theorem reports_visit (name : String) (s : Session) :
    ∀ event ∈ (setup.visit nested name s).journal, setup.Reports allowed event := by
  cases hcache : s.cache.get? name with
  | some state =>
    rw [visit_of_cached setup hcache]
    exact reports_debugNotice _ _
  | none =>
    cases hpush : s.active.push name with
    | error fault =>
      -- a cycle is critical, and so raised by every policy
      obtain ⟨-, rfl⟩ := ActiveSections.push_eq_error hpush
      have hraised : setup.policy.decision .critical = .raise := Severity.decision_critical _
      rw [visit_of_active setup hcache hpush]
      refine List.forall_mem_cons.2 ⟨?_, List.forall_mem_singleton.2 (.message _ _)⟩
      exact hraised ▸ .fault .critical _ s.active.depth
    | ok active =>
      have hbody := reports_evalBody hnested honly name { s with active }
      have hdone := List.forall_mem_append.2 ⟨reports_opening name active.depth, hbody⟩
      rw [visit_of_entered setup hcache hpush]
      dsimp only
      split
      · exact hdone
      · refine List.forall_mem_append.2 ⟨hdone, List.forall_mem_singleton.2 (.step ?_)⟩
        simp [exitEntry]

omit hnested in
/-- Induction on the budget. -/
theorem reports_evaluateWithin (budget : Nat) (name : String) (s : Session) :
    ∀ event ∈ (setup.evaluateWithin budget name s).journal, setup.Reports allowed event := by
  induction budget generalizing name s with
  | zero => exact List.forall_mem_nil _
  | succ budget ih => exact reports_visit ih honly name s

omit hnested in
theorem reports_evaluateEach (names : List String) (s : Session) :
    ∀ event ∈ (setup.evaluateEach names s).journal, setup.Reports allowed event := by
  induction names generalizing s with
  | nil => exact List.forall_mem_nil _
  | cons name rest ih =>
    have hfirst : ∀ event ∈ (setup.evaluate name s).journal, setup.Reports allowed event :=
      reports_evaluateWithin honly _ name s
    rw [evaluateEach_cons]
    dsimp only
    split
    · exact List.forall_mem_append.2 ⟨hfirst, ih _⟩
    · exact hfirst

end

end Setup

end IniCompose
