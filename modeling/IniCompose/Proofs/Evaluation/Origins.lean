import IniCompose.Proofs.Evaluation.Nesting
import IniCompose.Proofs.Evaluation.Surfacing

/-!
# Where faults come from

A fault that is put on the record, and one that an evaluation fails with, is about a key of the
document that cannot be resolved, about a section that is absent or active already, about a handler
that failed for a reason of its own, or it is one that a handler made up. What else a run tells is
about the sections it enters and the options of the document. So what is known of the texts of the
document and of those that handlers make up is known of all that a run tells.
-/
namespace IniCompose

/-! ## What handlers say -/

/-- The fault that an answer is. -/
def Request.fault? : (request : Request) → request.Answer → Option Fault
  | .evaluate _, .error fault => some fault
  | .report _ _, .error fault => some fault
  | _, _ => none

@[simp] theorem Request.fault?_evaluate {name : String} {answer : Except Fault SectionState}
    {fault : Fault} : (evaluate name).fault? answer = some fault ↔ answer = .error fault := by
  cases answer <;> simp [Request.fault?]

@[simp] theorem Request.fault?_report {severity : Severity} {reported fault : Fault}
    {answer : Except Fault Unit} :
    (report severity reported).fault? answer = some fault ↔ answer = .error fault := by
  cases answer <;> simp [Request.fault?]

/-- The program reports and fails with no faults but those that are `known` and those that it has
been answered, and its other errors have `plain` texts. -/
def Program.Speaks {α : Type} (plain : String → Prop) : (Fault → Prop) → Program α → Prop
  | _, done _ => True
  | known, fail error =>
    (∀ fault, error.fault? = some fault → known fault) ∧ (error.fault? = none → plain error.message)
  | known, ask request next =>
    (∀ severity fault, request = .report severity fault → known fault) ∧
      ∀ answer, (next answer).Speaks plain fun fault =>
        request.fault? answer = some fault ∨ known fault

/-- An option of a section, under its stored key. -/
def Document.HasOption (document : Document) (name : String) (option : String × String) : Prop :=
  ∃ options, document.options? name = some options ∧ option ∈ options.entries

namespace Setup

/-- A site at which a handler may be called. -/
inductive HasSite (setup : Setup) : OptionSite → Prop
  | mk {name option resolved} : setup.document.HasOption name option →
    setup.registry.resolveKey name option.1 = .ok resolved →
    HasSite setup ⟨name, (StoredKey.split option.1).1, option.2, resolved.key⟩

/-- All texts that handlers make up for options of the document are `plain`. -/
def Speaks (setup : Setup) (plain : String → Prop) : Prop :=
  ∀ handler, setup.registry.Holds handler → ∀ site, setup.HasSite site →
    (handler site).Speaks plain fun fault => plain fault.message

/-- The faults there can be if handlers make up `plain` texts only. -/
inductive Arises (setup : Setup) (plain : String → Prop) : Fault → Prop
  | key {name option fault} : setup.document.HasOption name option →
    setup.registry.resolveKey name option.1 = .error fault → Arises setup plain fault
  | absent {name} : setup.document.options? name = none → Arises setup plain (.sectionNotFound name)
  | cycle {name chain} : name ∈ chain →
    (∀ sectionName ∈ chain, setup.document.hasSection sectionName) →
    Arises setup plain (.circularReference name chain)
  | failed {site reason deeper} : setup.HasSite site → plain reason →
    Arises setup plain
      (.handlerExecution site.sectionName site.rawKey site.value reason deeper)
  | own {fault} : plain fault.message → Arises setup plain fault

/-- What a run may tell if handlers make up `plain` texts only. -/
inductive Tells (setup : Setup) (plain : String → Prop) : Event → Prop
  | note (text) : Tells setup plain (.note text)
  | custom (entry) : Tells setup plain (.custom entry)
  | message {verbosity} (text) : verbosity ≠ .warn → Tells setup plain (.message verbosity text)
  | warning {fault} (severity) : setup.Arises plain fault →
    Tells setup plain (.message .warn (setup.policy.warning severity fault))
  | entered (name depth) : Tells setup plain (.entry ⟨.sectionEntry, name, depth, .ofList []⟩)
  | left (name depth keys) : Tells setup plain (.entry (exitEntry name depth keys))
  | started {site} (depth) : setup.HasSite site → Tells setup plain (.entry (site.startEntry depth))
  | ended {site status} (depth) : setup.HasSite site → status = "ok" ∨ status = "error" →
    Tells setup plain (.entry (site.endEntry depth status))
  | assigned {name option resolved} (depth) : setup.document.HasOption name option →
    setup.registry.resolveKey name option.1 = .ok resolved → resolved.handler = none →
    Tells setup plain
      (.entry ⟨.keyMatch, resolved.key.parameter, depth, .ofList [("value", option.2)]⟩)
  | fault {fault} (severity depth) : setup.Arises plain fault →
    Tells setup plain
      (.entry (Policy.faultEntry severity (setup.policy.decision severity) fault depth))

/-- All that is told may be told, and a fault that ends the outcome is one there can be. -/
structure Grounded (setup : Setup) (plain : String → Prop) {σ α : Type}
    (outcome : Outcome σ Fault α) : Prop where
  events : ∀ event ∈ outcome.journal, setup.Tells plain event
  result : ∀ fault, outcome.result = .error fault → setup.Arises plain fault

variable {setup : Setup} {plain : String → Prop}

namespace Grounded

variable {σ α β : Type}

theorem map {outcome : Outcome σ Fault α} (h : setup.Grounded plain outcome) (f : α → β) :
    setup.Grounded plain ⟨outcome.result.map f, outcome.state, outcome.journal⟩ :=
  ⟨h.events, fun fault hfault => h.result fault (Except.error_of_map_eq_error hfault)⟩

theorem bind {x : Journaled σ Fault α} {next : α → Journaled σ Fault β} {s : σ}
    (h : setup.Grounded plain (x s))
    (hnext : ∀ a, setup.Grounded plain (next a (x s).state)) :
    setup.Grounded plain ((x >>= next) s) := by
  rw [Journaled.bind_apply]
  cases hresult : (x s).result with
  | ok a =>
    have hrest := hnext a
    exact ⟨List.forall_mem_append.2 ⟨h.events, hrest.events⟩, hrest.result⟩
  | error fault =>
    exact ⟨h.events, fun raised hraised => Except.error.inj hraised ▸ h.result fault hresult⟩

end Grounded

/-! ## Faults and messages -/

theorem tells_announcement {severity : Severity} {fault : Fault} (h : setup.Arises plain fault) :
    ∀ event ∈ setup.policy.announcement severity fault, setup.Tells plain event := by
  unfold Policy.announcement
  split
  · exact List.forall_mem_singleton.2 (.message _ (by decide))
  · split
    · exact List.forall_mem_nil _
    · exact List.forall_mem_singleton.2 (.warning severity h)
  · exact List.forall_mem_nil _

theorem debugVerbosity_ne_warn (level : UInt8) : debugVerbosity level ≠ .warn := by
  unfold debugVerbosity
  split_ifs <;> decide

theorem tells_debugNotice (level : UInt8) (text : String) :
    ∀ event ∈ setup.debugNotice level text, setup.Tells plain event := by
  unfold debugNotice
  split
  · exact List.forall_mem_singleton.2 (.message _ (debugVerbosity_ne_warn level))
  · exact List.forall_mem_nil _

theorem tells_opening (name : String) (depth : Nat) :
    ∀ event ∈ setup.opening name depth, setup.Tells plain event :=
  List.forall_mem_cons.2 ⟨.entered name depth, tells_debugNotice _ _⟩

theorem grounded_report {fault : Fault} (h : setup.Arises plain fault) (severity : Severity)
    (s : Session) : setup.Grounded plain (setup.report severity fault s) := by
  rw [report_apply]
  refine ⟨List.forall_mem_cons.2 ⟨.fault severity _ h, tells_announcement h⟩, ?_⟩
  intro raised hraised
  dsimp only at hraised
  split at hraised
  · cases hraised
    exact h
  · cases hraised

theorem grounded_settle {site : OptionSite} {error : HandlerError}
    (h : setup.Arises plain (faultOf site error)) (s : Session) :
    setup.Grounded plain (setup.settle site error s) := by
  rw [settle_apply]
  split
  · refine ⟨List.forall_mem_nil _, fun fault hfault => ?_⟩
    cases hfault
    exact h
  · exact grounded_report h _ s

/-! ## Evaluations -/

section

variable {budget : Nat}
  (hnested : ∀ name s, setup.Room budget s →
    setup.Grounded plain (setup.evaluateWithin budget name s))

include hnested

theorem tells_answer {request : Request} {s : Session × SectionState}
    (hreport : ∀ severity fault, request = .report severity fault → setup.Arises plain fault)
    (hroom : setup.Room budget s.1) :
    (∀ event ∈ (setup.answer (setup.evaluateWithin budget) request s).journal,
      setup.Tells plain event) ∧
    ∀ answer, (setup.answer (setup.evaluateWithin budget) request s).result = .ok answer →
      ∀ fault, request.fault? answer = some fault → setup.Arises plain fault := by
  cases request with
  | evaluate name =>
    have hgrounded := hnested name s.1 hroom
    refine ⟨hgrounded.events, fun answer hanswer fault hfault => hgrounded.result fault ?_⟩
    exact (Except.ok.inj hanswer).trans (Request.fault?_evaluate.1 hfault)
  | report severity fault =>
    have hgrounded := grounded_report (hreport severity fault rfl) severity s.1
    refine ⟨hgrounded.events, fun answer hanswer fault hfault => hgrounded.result fault ?_⟩
    exact (Except.ok.inj hanswer).trans (Request.fault?_report.1 hfault)
  | record kind name details =>
    exact ⟨List.forall_mem_singleton.2 (.custom _), by simp [Request.fault?]⟩
  | debug level text =>
    rw [answer, debug_apply]
    exact ⟨tells_debugNotice level text, by simp [Request.fault?]⟩
  | note text => exact ⟨List.forall_mem_singleton.2 (.note text), by simp [Request.fault?]⟩
  | state | setState _ | depth | settings =>
    exact ⟨List.forall_mem_nil _, by simp [Request.fault?]⟩

/-- Induction on the program: the faults that it knows can all be, and so can those it is answered.
-/
theorem tells_run {program : Program Unit} {known : Fault → Prop}
    (hspeaks : program.Speaks plain known)
    (hknown : ∀ fault, known fault → setup.Arises plain fault)
    {s : Session × SectionState} (hroom : setup.Room budget s.1) :
    (∀ event ∈ (setup.run (setup.evaluateWithin budget) program s).journal,
      setup.Tells plain event) ∧
    ∀ error, (setup.run (setup.evaluateWithin budget) program s).result = .error error →
      ∀ site, setup.HasSite site → setup.Arises plain (faultOf site error) := by
  induction program generalizing known s with
  | done a => exact ⟨List.forall_mem_nil _, fun _ herror => nomatch herror⟩
  | fail error =>
    refine ⟨List.forall_mem_nil _, fun _ herror site hsite => ?_⟩
    cases herror
    unfold faultOf
    cases hfault : error.fault? with
    | some fault => exact hknown fault (hspeaks.1 fault hfault)
    | none => exact .failed hsite (hspeaks.2 hfault)
  | ask request next ih =>
    obtain ⟨hevents, hanswers⟩ := tells_answer hnested
      (fun severity fault heq => hknown fault (hspeaks.1 severity fault heq)) hroom
    obtain ⟨answer, hanswer⟩ := setup.exists_answer (setup.evaluateWithin budget) request s
    have hkept := setup.bracketed_grows.answer (setup.grows_evaluateWithin budget) request s
    have hrest := ih answer (hspeaks.2 answer)
      (fun fault hfault => hfault.elim (hanswers answer hanswer fault) (hknown fault))
      (hroom.congr hkept.active)
    rw [run_ask, Journaled.bind_apply, hanswer]
    exact ⟨List.forall_mem_append.2 ⟨hevents, hrest.1⟩, hrest.2⟩

theorem grounded_dispatch {handler : Handler} {site : OptionSite} (hsite : setup.HasSite site)
    (hspeaks : (handler site).Speaks plain fun fault => plain fault.message)
    (state : SectionState) {s : Session} (hroom : setup.Room budget s) :
    setup.Grounded plain
      (setup.dispatch (setup.evaluateWithin budget) handler site state s) := by
  obtain ⟨hevents, herrors⟩ :=
    tells_run hnested hspeaks (fun _ => .own) (s := (s, state)) hroom
  have hstart : setup.Tells plain (.entry (site.startEntry s.active.depth)) := .started _ hsite
  have hstarted := List.forall_mem_cons.2 ⟨hstart, hevents⟩
  rw [dispatch_apply]
  dsimp only
  split
  · refine ⟨List.forall_mem_append.2 ⟨hstarted, List.forall_mem_singleton.2 ?_⟩,
      fun _ hfault => nomatch hfault⟩
    exact .ended _ hsite (.inl rfl)
  · next error herror =>
    have hsettled := grounded_settle (herrors error herror site hsite)
      (setup.run (setup.evaluateWithin budget) (handler site) (s, state)).state.1
    refine ⟨List.forall_mem_append.2 ⟨hstarted, List.forall_mem_cons.2 ⟨?_, hsettled.events⟩⟩,
      fun fault hfault => hsettled.result fault (Except.error_of_map_eq_error hfault)⟩
    exact .ended _ hsite (.inr rfl)

variable (hspeaks : setup.Speaks plain)

include hspeaks

theorem grounded_evalOption {name : String} {option : String × String}
    (hoption : setup.document.HasOption name option) (state : SectionState) {s : Session}
    (hroom : setup.Room budget s) :
    setup.Grounded plain
      (setup.evalOption (setup.evaluateWithin budget) name option.1 option.2 state s) := by
  cases hresolve : setup.registry.resolveKey name option.1 with
  | error fault =>
    have harises : setup.Arises plain fault := .key hoption hresolve
    have hreported := grounded_report harises fault.severity s
    rw [evalOption_of_error setup hresolve]
    exact hreported.map _
  | ok resolved =>
    cases hhandler : (resolved.handler <|> setup.registry.generic) with
    | some handler =>
      have hheld := Registry.holds_of_resolveKey hresolve hhandler
      have hsite := HasSite.mk hoption hresolve
      rw [evalOption_of_handler setup hresolve hhandler]
      exact grounded_dispatch hnested hsite (hspeaks handler hheld _ hsite) state hroom
    | none =>
      have hnone : resolved.handler = none := by
        cases hfound : resolved.handler with
        | none => rfl
        | some found => simp [hfound] at hhandler
      rw [evalOption_of_none setup hresolve hhandler]
      exact ⟨List.forall_mem_singleton.2 (.assigned _ hoption hresolve hnone),
        fun _ hfault => nomatch hfault⟩

/-- Induction on the options: every one is evaluated with the active sections there were. -/
theorem grounded_evalOptions {name : String} {options : List (String × String)}
    (hoptions : ∀ option ∈ options, setup.document.HasOption name option) (state : SectionState)
    {s : Session} (hroom : setup.Room budget s) :
    setup.Grounded plain
      (setup.evalOptions (setup.evaluateWithin budget) name options state s) := by
  induction options generalizing state s with
  | nil => exact ⟨List.forall_mem_nil _, fun _ hfault => nomatch hfault⟩
  | cons option rest ih =>
    obtain ⟨hoption, hrest⟩ := List.forall_mem_cons.1 hoptions
    have hkept := setup.bracketed_grows.evalOption (setup.grows_evaluateWithin budget) name
      option.1 option.2 state s
    exact (grounded_evalOption hnested hspeaks hoption state hroom).bind fun next =>
      ih hrest next (hroom.congr hkept.active)

/-- The body of a section that is requested where there is room. -/
theorem grounded_evalBody {name : String} {s : Session} {active : ActiveSections}
    (hroom : setup.Room (budget + 1) s) (hpush : s.active.push name = .ok active) :
    setup.Grounded plain
      (setup.evalBody (setup.evaluateWithin budget) name { s with active }) := by
  cases hoptions : setup.document.options? name with
  | some options =>
    have hgrounded := grounded_evalOptions hnested hspeaks
      (fun option hoption => ⟨options, hoptions, hoption⟩) ∅
      (hroom.enter (hasSection_iff.2 ⟨options, hoptions⟩) hpush)
    rw [evalBody_of_some setup hoptions]
    exact hgrounded.map _
  | none =>
    have harises : setup.Arises plain (.sectionNotFound name) := .absent hoptions
    have hreported := grounded_report harises .serious { s with active }
    rw [evalBody_of_none setup hoptions]
    exact hreported.map _

theorem grounded_visit (name : String) {s : Session} (hroom : setup.Room (budget + 1) s) :
    setup.Grounded plain (setup.visit (setup.evaluateWithin budget) name s) := by
  cases hcache : s.cache.get? name with
  | some state =>
    rw [visit_of_cached setup hcache]
    exact ⟨tells_debugNotice _ _, fun _ hfault => nomatch hfault⟩
  | none =>
    cases hpush : s.active.push name with
    | error fault =>
      -- a cycle is critical, and so raised by every policy
      obtain ⟨hmem, rfl⟩ := ActiveSections.push_eq_error hpush
      have hraised : setup.policy.decision .critical = .raise := Severity.decision_critical _
      have harises : setup.Arises plain (.circularReference name (s.active.names ++ [name])) := by
        refine .cycle (by simp) fun sectionName hchain => hroom.exist sectionName ?_
        rcases List.mem_append.1 hchain with hactive | hlast
        · exact List.mem_reverse.1 hactive
        · exact List.mem_singleton.1 hlast ▸ hmem
      rw [visit_of_active setup hcache hpush]
      refine ⟨List.forall_mem_cons.2 ⟨?_, List.forall_mem_singleton.2 (.message _ (by decide))⟩,
        fun raised hresult => Except.error.inj hresult ▸ harises⟩
      exact hraised ▸ .fault .critical s.active.depth harises
    | ok active =>
      have hbody := grounded_evalBody hnested hspeaks hroom hpush
      have hdone := List.forall_mem_append.2 ⟨tells_opening name active.depth, hbody.events⟩
      rw [visit_of_entered setup hcache hpush]
      dsimp only
      split
      · next fault hfault =>
        exact ⟨hdone, fun raised hraised => Except.error.inj hraised ▸ hbody.result fault hfault⟩
      · exact ⟨List.forall_mem_append.2 ⟨hdone, List.forall_mem_singleton.2 (.left _ _ _)⟩,
          fun _ hfault => nomatch hfault⟩

omit hnested in
/-- Induction on the budget, which never runs out. -/
theorem grounded_evaluateWithin (budget : Nat) (name : String) {s : Session}
    (hroom : setup.Room budget s) :
    setup.Grounded plain (setup.evaluateWithin budget name s) := by
  induction budget generalizing name s with
  | zero => exact absurd hroom not_room_zero
  | succ budget ih => exact grounded_visit (fun _ _ => ih _) hspeaks name hroom

omit hnested in
theorem grounded_evaluateEach (names : List String) {s : Session} (hactive : s.active = ∅) :
    setup.Grounded plain (setup.evaluateEach names s) := by
  induction names generalizing s with
  | nil => exact ⟨List.forall_mem_nil _, fun _ hfault => nomatch hfault⟩
  | cons name rest ih =>
    have hfirst : setup.Grounded plain (setup.evaluate name s) :=
      grounded_evaluateWithin hspeaks _ name (room_of_inactive hactive)
    have hkept : (setup.evaluate name s).state.active = s.active :=
      (setup.grows_evaluateWithin _ name s).active
    rw [evaluateEach_cons]
    dsimp only
    split
    · have hlater := ih (hkept.trans hactive)
      exact ⟨List.forall_mem_append.2 ⟨hfirst.events, hlater.events⟩, hlater.result⟩
    · next fault hfault =>
      exact ⟨hfirst.events,
        fun raised hraised => Except.error.inj hraised ▸ hfirst.result fault hfault⟩

end

end Setup

end IniCompose
