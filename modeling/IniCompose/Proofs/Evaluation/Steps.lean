import IniCompose.Evaluation

/-!
# What each part of an evaluation does

One equation for each part: its result, the session it leaves and what it reports, in terms of the
same data of the parts it is made of. Nothing later unfolds the parts themselves.
-/
namespace IniCompose

@[simp] theorem Except.mapError_ok {ε ε' α : Type} (f : ε → ε') (a : α) :
    (Except.ok a).mapError f = .ok a := rfl

@[simp] theorem Except.mapError_error {ε ε' α : Type} (f : ε → ε') (e : ε) :
    (Except.error e : Except ε α).mapError f = .error (f e) := rfl

attribute [ext] Outcome

namespace Outcome

variable {σ ε α : Type}

/-- An outcome before which `journal` has been reported. -/
def after (journal : Journal) (outcome : Outcome σ ε α) : Outcome σ ε α :=
  { outcome with journal := journal ++ outcome.journal }

@[simp] theorem result_after (journal : Journal) (outcome : Outcome σ ε α) :
    (outcome.after journal).result = outcome.result := rfl

@[simp] theorem state_after (journal : Journal) (outcome : Outcome σ ε α) :
    (outcome.after journal).state = outcome.state := rfl

@[simp] theorem journal_after (journal : Journal) (outcome : Outcome σ ε α) :
    (outcome.after journal).journal = journal ++ outcome.journal := rfl

@[simp] theorem after_nil (outcome : Outcome σ ε α) : outcome.after [] = outcome := rfl

end Outcome

namespace Journaled

variable {σ τ ε ε' α β : Type}

theorem bind_apply (x : Journaled σ ε α) (next : α → Journaled σ ε β) (s : σ) :
    (x >>= next) s =
      match (x s).result with
      | .ok a => (next a (x s).state).after (x s).journal
      | .error e => ⟨.error e, (x s).state, (x s).journal⟩ := by
  change bind x next s = _
  unfold bind
  rcases x s with ⟨_ | _, _, _⟩ <;> rfl

@[simp] theorem tell_apply (event : Event) (s : σ) :
    (tell event : Journaled σ ε Unit) s = ⟨.ok (), s, [event]⟩ := rfl

@[simp] theorem get_apply (s : σ) : (get : Journaled σ ε σ) s = ⟨.ok s, s, []⟩ := rfl

@[simp] theorem modify_apply (f : σ → σ) (s : σ) :
    (modify f : Journaled σ ε Unit) s = ⟨.ok (), f s, []⟩ := rfl

@[simp] theorem throw_apply (e : ε) (s : σ) :
    (throw e : Journaled σ ε α) s = ⟨.error e, s, []⟩ := rfl

@[simp] theorem ofExcept_apply (r : Except ε α) (s : σ) :
    (ofExcept r : Journaled σ ε α) s = ⟨r, s, []⟩ := by cases r <;> rfl

end Journaled

/-- What a policy tells the console about a fault, besides putting it on the record. -/
def Policy.announcement (policy : Policy) (severity : Severity) (fault : Fault) : Journal :=
  match policy.decision severity with
  | .raise =>
    [.message .debug
      ("raising " ++ fault.kind ++ " fault (" ++ severity.label ++ "): " ++ fault.message)]
  | .warn => if policy.silent then [] else [.message .warn (policy.warning severity fault)]
  | .silent => []

theorem Policy.mem_announcement {policy : Policy} {severity : Severity} {fault : Fault}
    {event : Event} (h : event ∈ policy.announcement severity fault) :
    ∃ verbosity text, event = .message verbosity text := by
  unfold announcement at h
  split at h
  · exact ⟨_, _, List.mem_singleton.1 h⟩
  · split at h
    · cases h
    · exact ⟨_, _, List.mem_singleton.1 h⟩
  · cases h

theorem Policy.report_apply {σ : Type} (policy : Policy) (severity : Severity) (fault : Fault)
    (depth : Nat) (s : σ) :
    policy.report severity fault depth s =
      ⟨if policy.decision severity = .raise then .error fault else .ok (), s,
        .entry (faultEntry severity (policy.decision severity) fault depth) ::
          policy.announcement severity fault⟩ := by
  unfold report announcement
  cases policy.decision severity with
  | raise => rfl
  | warn => cases policy.silent <;> rfl
  | silent => rfl

/-- The entry for the start of the handler of an option. -/
def OptionSite.startEntry (site : OptionSite) (depth : Nat) : Trace.Entry where
  kind := .handlerEntry
  name := site.key.operation.getD Setup.genericOperation
  depth := depth
  details := .ofList [("section", site.sectionName), ("key", site.rawKey)]

/-- The entry for the end of the handler of an option. -/
def OptionSite.endEntry (site : OptionSite) (depth : Nat) (status : String) : Trace.Entry where
  kind := .handlerExit
  name := site.key.operation.getD Setup.genericOperation
  depth := depth
  details := .ofList [("status", status)]

namespace Setup

open Journaled

variable (setup : Setup)

/-! ## Faults -/

theorem report_apply (severity : Severity) (fault : Fault) (session : Session) :
    setup.report severity fault session =
      ⟨if setup.policy.decision severity = .raise then .error fault else .ok (),
        if setup.policy.decision severity = .raise then
          { session with raised := some fault.message } else session,
        .entry (Policy.faultEntry severity (setup.policy.decision severity) fault
          session.active.depth) :: setup.policy.announcement severity fault⟩ := by
  change Journaled.tryCatch (setup.policy.report severity fault session.active.depth) _ session = _
  rw [Journaled.tryCatch, Policy.report_apply]
  by_cases h : setup.policy.decision severity = .raise
  · simp [h, bind_apply, modify_apply, throw_apply]
  · simp [h]

/-- The fault that a handler's error amounts to when it is put to the policy. -/
def faultOf (site : OptionSite) (error : HandlerError) : Fault :=
  error.fault?.getD
    (.handlerExecution site.sectionName site.rawKey site.value error.message error.causes)

theorem settle_apply (site : OptionSite) (error : HandlerError) (session : Session) :
    setup.settle site error session =
      if ∃ fault, error.fault? = some fault ∧ session.raised = some fault.message then
        ⟨.error (faultOf site error), session, []⟩
      else setup.report (faultOf site error).severity (faultOf site error) session := by
  unfold settle faultOf
  cases error.fault? with
  | none => simp
  | some fault =>
    by_cases h : session.raised = some fault.message
    · simp [h, bind_apply, get_apply, throw_apply]
    · simp [h, bind_apply, get_apply]

/-! ## Options -/

theorem dispatch_apply (nested : Evaluator) (handler : Handler) (site : OptionSite)
    (state : SectionState) (session : Session) :
    setup.dispatch nested handler site state session =
      let depth := session.active.depth
      let run := setup.run nested (handler site) (session, state)
      match run.result with
      | .ok () =>
        ⟨.ok run.state.2, run.state.1,
          .entry (site.startEntry depth) :: run.journal ++ [.entry (site.endEntry depth "ok")]⟩
      | .error error =>
        let settled := setup.settle site error run.state.1
        ⟨settled.result.map fun _ => run.state.2, settled.state,
          .entry (site.startEntry depth) :: run.journal ++
            .entry (site.endEntry depth "error") :: settled.journal⟩ := by
  simp only [dispatch, bind_apply, get_apply, Evaluation.record, tell_apply, runHandler]
  rcases (setup.run nested (handler site) (session, state)) with
    ⟨error | _, ⟨after, state'⟩, journal⟩
  · simp only [bind_apply, tell_apply]
    rcases setup.settle site error after with ⟨_ | _, _, _⟩ <;>
      simp [Outcome.after, pure_apply, Except.map, OptionSite.startEntry, OptionSite.endEntry]
  · rfl

theorem evalOption_of_error {sectionName stored value : String} {fault : Fault}
    (h : setup.registry.resolveKey sectionName stored = .error fault) (nested : Evaluator)
    (state : SectionState) (session : Session) :
    setup.evalOption nested sectionName stored value state session =
      let reported := setup.report fault.severity fault session
      ⟨reported.result.map fun _ => state, reported.state, reported.journal⟩ := by
  simp only [evalOption, h, bind_apply]
  rcases setup.report fault.severity fault session with ⟨_ | _, _, _⟩ <;>
    simp [Outcome.after, pure_apply, Except.map]

theorem evalOption_of_handler {sectionName stored value : String} {resolved : ResolvedKey}
    {handler : Handler} (h : setup.registry.resolveKey sectionName stored = .ok resolved)
    (hhandler : (resolved.handler <|> setup.registry.generic) = some handler) (nested : Evaluator)
    (state : SectionState) (session : Session) :
    setup.evalOption nested sectionName stored value state session =
      setup.dispatch nested handler
        ⟨sectionName, (StoredKey.split stored).1, value, resolved.key⟩ state session := by
  simp only [evalOption, h, hhandler]

theorem evalOption_of_none {sectionName stored value : String} {resolved : ResolvedKey}
    (h : setup.registry.resolveKey sectionName stored = .ok resolved)
    (hnone : (resolved.handler <|> setup.registry.generic) = none) (nested : Evaluator)
    (state : SectionState) (session : Session) :
    setup.evalOption nested sectionName stored value state session =
      ⟨.ok (state.set resolved.key.parameter value), session,
        [.entry ⟨.keyMatch, resolved.key.parameter, session.active.depth,
          .ofList [("value", value)]⟩]⟩ := by
  simp only [evalOption, h, hnone]
  rfl

/-! ## Sections -/

/-- What a debug message of the given level leaves in the journal. -/
def debugNotice (level : UInt8) (text : String) : Journal :=
  if level ≤ setup.settings.debugLevel then [.message (debugVerbosity level) text] else []

theorem mem_debugNotice {level : UInt8} {text : String} {event : Event}
    (h : event ∈ setup.debugNotice level text) :
    ∃ verbosity text, event = .message verbosity text := by
  unfold debugNotice at h
  split at h
  · exact ⟨_, _, List.mem_singleton.1 h⟩
  · cases h

@[simp] theorem debug_apply {σ ε : Type} (level : UInt8) (text : String) (s : σ) :
    (setup.debug level text : Journaled σ ε Unit) s =
      ⟨.ok (), s, setup.debugNotice level text⟩ := by
  unfold debug debugNotice
  split <;> rfl

theorem evalBody_of_some {name : String} {options : Options}
    (h : setup.document.options? name = some options) (nested : Evaluator) (session : Session) :
    setup.evalBody nested name session =
      let outcome := setup.evalOptions nested name options.entries ∅ session
      ⟨outcome.result.map some, outcome.state, outcome.journal⟩ := by
  simp only [evalBody, h, map_eq_pure_bind, bind_apply]
  rcases setup.evalOptions nested name options.entries ∅ session with ⟨_ | _, _, _⟩ <;>
    simp [Outcome.after, pure_apply, Except.map]

theorem evalBody_of_none {name : String} (h : setup.document.options? name = none)
    (nested : Evaluator) (session : Session) :
    setup.evalBody nested name session =
      let reported := setup.report .serious (.sectionNotFound name) session
      ⟨reported.result.map fun _ => none, reported.state, reported.journal⟩ := by
  simp only [evalBody, h, bind_apply, Fault.severity]
  rcases setup.report .serious (.sectionNotFound name) session with ⟨_ | _, _, _⟩ <;>
    simp [Outcome.after, pure_apply, Except.map]

/-- What entering a section leaves in the journal. -/
def opening (name : String) (depth : Nat) : Journal :=
  .entry ⟨.sectionEntry, name, depth, .ofList []⟩ ::
    setup.debugNotice 1 ("[" ++ name ++ "] parsing (depth " ++ depth.repr ++ ")")

/-- The entry for leaving a section that has a number of keys. -/
def exitEntry (name : String) (depth keys : Nat) : Trace.Entry :=
  ⟨.sectionExit, name, depth, .ofList [("keys", keys.repr)]⟩

theorem within_apply {α : Type} (name : String) (active : ActiveSections) (x : Evaluation α)
    (session : Session) :
    within name active x session =
      let inner := x { session with active }
      ⟨inner.result, { inner.state with active := inner.state.active.pop name },
        inner.journal⟩ := by
  simp [within, bind_apply, attempt_apply, Outcome.after]

/-- Leaves a section in a session: the state of an existing one is cached. -/
def leave (name : String) (session : Session) : Option SectionState → Session
  | some state => { session with cache := session.cache.insert name state }
  | none => session

theorem finish_apply (name : String) (depth : Nat) (state? : Option SectionState)
    (session : Session) :
    finish name depth state? session =
      ⟨.ok (state?.getD ∅), leave name session state?,
        [.entry (exitEntry name depth (state?.getD ∅).size)]⟩ := by
  cases state? with
  | none => rfl
  | some state => rfl

theorem visit_of_cached {name : String} {session : Session} {state : SectionState}
    (h : session.cache.get? name = some state) (nested : Evaluator) :
    setup.visit nested name session =
      ⟨.ok state, session, setup.debugNotice 3 ("[" ++ name ++ "] served from cache")⟩ := by
  simp only [visit, bind_apply, get_apply, h, debug_apply, pure_apply]
  simp [Outcome.after]

theorem visit_of_active {name : String} {session : Session} {fault : Fault}
    (hcache : session.cache.get? name = none) (hpush : session.active.push name = .error fault)
    (nested : Evaluator) :
    setup.visit nested name session =
      ⟨.error fault, { session with raised := some fault.message },
        [.entry (Policy.faultEntry fault.severity .raise fault session.active.depth),
          .message .debug
            ("raising " ++ fault.kind ++ " fault (" ++ fault.severity.label ++ "): " ++
              fault.message)]⟩ := by
  simp only [visit, bind_apply, get_apply, hcache, hpush, Outcome.after_nil]
  rfl

theorem visit_of_entered {name : String} {session : Session} {active : ActiveSections}
    (hcache : session.cache.get? name = none) (hpush : session.active.push name = .ok active)
    (nested : Evaluator) :
    setup.visit nested name session =
      let body := setup.evalBody nested name { session with active }
      let left := { body.state with active := body.state.active.pop name }
      let journal := setup.opening name active.depth ++ body.journal
      match body.result with
      | .error fault => ⟨.error fault, left, journal⟩
      | .ok state? =>
        ⟨.ok (state?.getD ∅), leave name left state?,
          journal ++ [.entry (exitEntry name active.depth (state?.getD ∅).size)]⟩ := by
  simp only [visit, bind_apply, get_apply, hcache, hpush, within_apply, Evaluation.record,
    tell_apply, debug_apply, finish_apply]
  rcases setup.evalBody nested name { session with active } with ⟨_ | _, _, _⟩ <;>
    simp [Outcome.after, opening]

section

variable {name : String} {session : Session} {active : ActiveSections}
  (hcache : session.cache.get? name = none) (hpush : session.active.push name = .ok active)
  (nested : Evaluator)

include hcache hpush

theorem result_visit_of_entered :
    (setup.visit nested name session).result =
      (setup.evalBody nested name { session with active }).result.map (·.getD ∅) := by
  rw [visit_of_entered setup hcache hpush]
  dsimp only
  cases (setup.evalBody nested name { session with active }).result <;> rfl

/-- An entered section reports what its body reports, and its exit at the end if it has a state. -/
theorem journal_visit_of_entered :
    ∃ last, (setup.visit nested name session).journal = setup.opening name active.depth ++
        (setup.evalBody nested name { session with active }).journal ++ last ∧
      ∀ state?, (setup.evalBody nested name { session with active }).result = .ok state? →
        last = [.entry (exitEntry name active.depth (state?.getD ∅).size)] := by
  rw [visit_of_entered setup hcache hpush]
  dsimp only
  cases (setup.evalBody nested name { session with active }).result with
  | error fault => exact ⟨[], (List.append_nil _).symm, fun _ hstate => nomatch hstate⟩
  | ok state? => exact ⟨_, rfl, fun _ hstate => by rw [Except.ok.inj hstate]⟩

end

end Setup

end IniCompose
