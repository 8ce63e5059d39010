import IniCompose.Proofs.Engine.Steps

/-!
# Faults that come out of handlers

A fault that a handler fails with has either been put to the policy before, where it was raised, or
it is the handler's own. The engine tells the two apart by the text of the fault that was raised
last. So a handler's own fault is put to the policy exactly if its text is not that of the last
raised one, whoever raised that and whatever became of it since the run began.
-/
namespace IniCompose

/-- A handler that is called: its option and those after it in the section, and where the run stands
when the call is made. -/
structure Call where
  /-- How deep requests of the handler may still nest. -/
  budget : Nat
  handler : Handler
  option : String × String
  rest : List (String × String)
  site : OptionSite
  state : SectionState
  session : Session
  /-- What has been reported since the run began. -/
  heard : Journal

namespace Call

/-- The run of the handler. -/
def work (call : Call) (setup : Setup) : Outcome (Session × SectionState) HandlerError Unit :=
  setup.run (setup.evaluateWithin call.budget) (call.handler call.site) (call.session, call.state)

/-- The entry for the start of the handler. -/
def start (call : Call) : Event := .entry (call.site.startEntry call.session.active.depth)

/-- What has been reported when the handler ends. -/
def told (call : Call) (setup : Setup) : Journal :=
  call.heard ++ call.start :: (call.work setup).journal

/-- What becomes of the option and of those after it. -/
def outcome (call : Call) (setup : Setup) : Outcome Session Fault SectionState :=
  setup.evalOptions (setup.evaluateWithin call.budget) call.site.sectionName
    (call.option :: call.rest) call.state call.session

/-- What the options after the call's come to when the handler has failed and is passed over. -/
def next (call : Call) (setup : Setup) : Outcome Session Fault SectionState :=
  setup.evalOptions (setup.evaluateWithin call.budget) call.site.sectionName call.rest
    (call.work setup).state.2 (call.work setup).state.1

/-- What the call reports up to the end of its failing handler. -/
def failure (call : Call) (setup : Setup) : Journal :=
  call.start :: (call.work setup).journal ++
    [.entry (call.site.endEntry call.session.active.depth "error")]

/-- The handler's fault is put to the policy: it goes on the record once, with its severity and the
decision about it, and it is the outcome if it is raised; else the next option is evaluated. -/
def PutToPolicy (call : Call) (setup : Setup) (fault : Fault) : Prop :=
  let decision := setup.policy.decision fault.severity
  let record :=
    .entry (Policy.faultEntry fault.severity decision fault call.session.active.depth) ::
      setup.policy.announcement fault.severity fault
  if decision = .raise then
    (call.outcome setup).result = .error fault ∧
      (call.outcome setup).journal = call.failure setup ++ record
  else call.outcome setup = (call.next setup).after (call.failure setup ++ record)

end Call

namespace Setup

/-- Running a program asks for a section, in a session, after some reports. -/
inductive Asks (setup : Setup) (nested : Evaluator) :
    Program Unit → Session × SectionState → String → Session → Journal → Prop
  | now {target next s} : Asks setup nested (.ask (.evaluate target) next) s target s.1 []
  | later {request next s answer t told target u k} :
    setup.answer nested request s = ⟨.ok answer, t, told⟩ →
    Asks setup nested (next answer) t target u k →
    Asks setup nested (.ask request next) s target u (told ++ k)

/-- Evaluating a section in a session calls a handler, for an option of the section itself or for
one of a section that is asked for on the way. -/
inductive Calls (setup : Setup) : Nat → String → Session → Journal → Call → Prop
  | own {budget name s heard active options before option rest state t told resolved handler} :
    s.cache.get? name = none → s.active.push name = .ok active →
    setup.document.options? name = some options → options.entries = before ++ option :: rest →
    setup.evalOptions (setup.evaluateWithin budget) name before ∅ { s with active } =
      ⟨.ok state, t, told⟩ →
    setup.registry.resolveKey name option.1 = .ok resolved →
    (resolved.handler <|> setup.registry.generic) = some handler →
    Calls setup (budget + 1) name s heard
      { budget, handler, option, rest,
        site := ⟨name, (StoredKey.split option.1).1, option.2, resolved.key⟩
        state, session := t, heard := heard ++ setup.opening name active.depth ++ told }
  | inner {budget name s heard call target t told deeper} :
    Calls setup budget name s heard call →
    Asks setup (setup.evaluateWithin call.budget) (call.handler call.site)
      (call.session, call.state) target t told →
    Calls setup call.budget target t (call.heard ++ call.start :: told) deeper →
    Calls setup budget name s heard deeper

variable {setup : Setup}

theorem raised_of_asks {budget : Nat} {program : Program Unit} {s : Session × SectionState}
    {target : String} {t : Session} {told : Journal}
    (h : setup.Asks (setup.evaluateWithin budget) program s target t told) :
    t.raised = told.lastRaised.or s.1.raised := by
  induction h with
  | now => simp
  | @later request _ s _ _ _ _ _ _ hanswer _ ih =>
    have hkept := setup.bracketed_raised.answer (setup.bracketed_raised.evaluateWithin budget)
      request s
    rw [hanswer] at hkept
    rw [ih, hkept, Journal.lastRaised_append, Option.or_assoc]

theorem raised_start (call : Call) : call.start.raised? = none :=
  Event.raised?_eq_none_of_kind (by simp [OptionSite.startEntry])

/-- When a handler is called, the session remembers the fault that was raised last in the run. -/
theorem Calls.raised {budget : Nat} {name : String} {s : Session} {heard : Journal} {call : Call}
    (h : setup.Calls budget name s heard call) (hs : s.raised = heard.lastRaised) :
    call.session.raised = call.heard.lastRaised := by
  induction h with
  | @own budget name s heard active options before option rest state t told _ _ _ _ _ _ hbefore =>
    have hopening := setup.kept_raised.quiet { s with active }
      (Setup.Kept.opening_quiet setup name active.depth)
    have hkept := setup.bracketed_raised.evalOptions (setup.bracketed_raised.evaluateWithin budget)
      name before ∅ { s with active }
    rw [hbefore] at hkept
    have htold : t.raised = (setup.opening name active.depth ++ told).lastRaised.or s.raised :=
      setup.kept_raised.trans hopening hkept
    rw [htold, hs, List.append_assoc, Journal.lastRaised_append heard]
  | @inner _ _ _ _ call _ t told _ _ hasks _ ih ihdeeper =>
    refine ihdeeper ?_
    have hstart := setup.kept_raised.tell call.session call.start (raised_start call)
    have htold : t.raised =
        (Journal.lastRaised ([call.start] ++ told)).or call.session.raised :=
      setup.kept_raised.trans hstart (raised_of_asks hasks)
    rw [htold, ih hs, ← Journal.lastRaised_append]
    rfl

/-- A call is made for an option whose key names the handler, or for one without operation when
there is a generic handler. -/
theorem Calls.resolves {budget : Nat} {name : String} {s : Session} {heard : Journal} {call : Call}
    (h : setup.Calls budget name s heard call) :
    ∃ resolved, setup.registry.resolveKey call.site.sectionName call.option.1 = .ok resolved ∧
      (resolved.handler <|> setup.registry.generic) = some call.handler ∧
      call.site = ⟨call.site.sectionName, (StoredKey.split call.option.1).1, call.option.2,
        resolved.key⟩ := by
  induction h with
  | own _ _ _ _ _ hresolve hhandler => exact ⟨_, hresolve, hhandler, rfl⟩
  | inner _ _ _ _ ihdeeper => exact ihdeeper

/-! ## What becomes of a fault -/

variable {budget : Nat} {name : String} {s : Session} {heard : Journal} {call : Call}

/-- After a failing handler the error is settled, and if it is passed over the next option follows.
-/
theorem Calls.outcome_of_error (h : setup.Calls budget name s heard call) {error : HandlerError}
    (herror : (call.work setup).result = .error error) :
    call.outcome setup =
      let settled := setup.settle call.site error (call.work setup).state.1
      match settled.result with
      | .ok () =>
        (setup.evalOptions (setup.evaluateWithin call.budget) call.site.sectionName call.rest
          (call.work setup).state.2 settled.state).after (call.failure setup ++ settled.journal)
      | .error fault => ⟨.error fault, settled.state, call.failure setup ++ settled.journal⟩ := by
  obtain ⟨resolved, hresolve, hhandler, hsite⟩ := h.resolves
  rw [Call.outcome, evalOptions, Journaled.bind_apply,
    evalOption_of_handler setup hresolve hhandler, ← hsite, dispatch_apply]
  unfold Call.work at herror
  simp only [herror]
  unfold Call.failure Call.work Call.start
  cases (setup.settle call.site error _).result with
  | ok _ => simp [Except.map]
  | error fault => simp [Except.map]

theorem active_work (call : Call) :
    (call.work setup).state.1.active = call.session.active :=
  (setup.bracketed_grows.run (setup.grows_evaluateWithin call.budget) (call.handler call.site)
    (call.session, call.state)).active

/-- When a handler ends, the session remembers the fault that was raised last in the run. -/
theorem raised_work (h : call.session.raised = call.heard.lastRaised) :
    (call.work setup).state.1.raised = (call.told setup).lastRaised := by
  have hrun := setup.bracketed_raised.run (setup.bracketed_raised.evaluateWithin call.budget)
    (call.handler call.site) (call.session, call.state)
  have hstart := setup.kept_raised.tell call.session call.start (raised_start call)
  have hwork : (call.work setup).state.1.raised =
      (Journal.lastRaised ([call.start] ++ (call.work setup).journal)).or call.session.raised :=
    setup.kept_raised.trans hstart hrun
  rw [hwork, h, ← Journal.lastRaised_append]
  rfl

/-- A fault whose text is not the last raised one is put to the policy. -/
theorem Calls.putToPolicy (h : setup.Calls budget name s heard call) {error : HandlerError}
    {fault : Fault} (herror : (call.work setup).result = .error error)
    (hfault : error.fault? = some fault)
    (hnew : (call.work setup).state.1.raised ≠ some fault.message) :
    call.PutToPolicy setup fault := by
  have hown : ¬ ∃ known, error.fault? = some known ∧
      (call.work setup).state.1.raised = some known.message := by
    rintro ⟨known, hknown, hraised⟩
    cases hfault.symm.trans hknown
    exact hnew hraised
  have hfaultOf : faultOf call.site error = fault := by simp [faultOf, hfault]
  have houtcome := h.outcome_of_error herror
  rw [settle_apply, if_neg hown, hfaultOf, report_apply, active_work] at houtcome
  unfold Call.PutToPolicy
  by_cases hraise : setup.policy.decision fault.severity = .raise
  · simp only [hraise, if_true] at houtcome ⊢
    rw [houtcome]
    exact ⟨rfl, rfl⟩
  · simp only [hraise, if_false] at houtcome ⊢
    exact houtcome

/-- A fault with the text of the last raised one is passed on, off the record. -/
theorem Calls.passedOn (h : setup.Calls budget name s heard call) {error : HandlerError}
    {fault : Fault} (herror : (call.work setup).result = .error error)
    (hfault : error.fault? = some fault)
    (hknown : (call.work setup).state.1.raised = some fault.message) :
    call.outcome setup = ⟨.error fault, (call.work setup).state.1, call.failure setup⟩ := by
  have hrouted : ∃ known, error.fault? = some known ∧
      (call.work setup).state.1.raised = some known.message := ⟨fault, hfault, hknown⟩
  have hfaultOf : faultOf call.site error = fault := by simp [faultOf, hfault]
  rw [h.outcome_of_error herror, settle_apply, if_pos hrouted, hfaultOf]
  simp

/-- What is passed on off the record has not been put to the policy. -/
theorem not_putToPolicy_of_passedOn {fault : Fault} {t : Session}
    (h : call.outcome setup = ⟨.error fault, t, call.failure setup⟩) :
    ¬ call.PutToPolicy setup fault := by
  unfold Call.PutToPolicy
  dsimp only
  intro hput
  split at hput
  · have hjournal := hput.2
    rw [h] at hjournal
    simp at hjournal
  · have hjournal := congrArg Outcome.journal hput
    rw [h, Outcome.journal_after] at hjournal
    simp at hjournal

end Setup

namespace Engine

variable {engine : Engine} {call : Call}

/-- A run of the engine calls a handler: the evaluation of a section that is not kept, or that of
every section. -/
inductive Calls (engine : Engine) : Call → Prop
  | evaluate {name call} :
    engine.cache.get? name = none →
    engine.toSetup.Calls (engine.document.size + 1) name { cache := engine.cache } [] call →
    Calls engine call
  | evaluateAll {before name rest s told call} :
    engine.document.names = before ++ name :: rest →
    engine.toSetup.evaluateEach before { cache := engine.cache } = ⟨.ok (), s, told⟩ →
    engine.toSetup.Calls (engine.document.size + 1) name s told call → Calls engine call

/-- A run starts with no fault remembered, and the sections before the present one have left the
fault that they raised last. -/
theorem Calls.exists_run (h : engine.Calls call) :
    ∃ name s heard, engine.toSetup.Calls (engine.document.size + 1) name s heard call ∧
      s.raised = Journal.lastRaised heard := by
  cases h with
  | @evaluate name _ _ hcall => exact ⟨name, _, [], hcall, rfl⟩
  | @evaluateAll before name _ s told _ _ hbefore hcall =>
    refine ⟨name, s, told, hcall, ?_⟩
    have hkept := engine.kept_raised.evaluateEach before { cache := engine.cache }
    rw [hbefore] at hkept
    simpa using hkept

/-- In every run, a fault that a handler fails with is put to the policy exactly if its text is not
that of the fault raised last in the run. -/
theorem putToPolicy_iff (h : engine.Calls call) {error : HandlerError} {fault : Fault}
    (herror : (call.work engine.toSetup).result = .error error)
    (hfault : error.fault? = some fault) :
    call.PutToPolicy engine.toSetup fault ↔
      (call.told engine.toSetup).lastRaised ≠ some fault.message := by
  obtain ⟨name, s, heard, hcall, hraised⟩ := h.exists_run
  rw [← Setup.raised_work (hcall.raised hraised)]
  constructor
  · intro hput hknown
    exact Setup.not_putToPolicy_of_passedOn (hcall.passedOn herror hfault hknown) hput
  · exact hcall.putToPolicy herror hfault

/-- A malformed option, as the handlers of `probing` tell it. -/
def malformed (detail : String) : Fault := .optionFormat "A" "k" detail

/-- A handler that reports a fault as critical and goes on, before one that fails with a minor fault
of its own; no minor fault is raised. -/
def probing (reported : Fault) : Engine :=
  .lenient ⟨.ofList [("A", .ofList [("probe x", ""), ("boom y", ""), ("k", "v")])]⟩
    ((Registry.standard.register "probe" fun _ => do
      let _ ← Program.report .critical reported).register "boom"
        fun _ => .fail (.fault (malformed "m")))

/-- The second handler of `probing` fails when the reported fault is remembered. -/
theorem exists_call_probing (reported : Fault) :
    ∃ call, (probing reported).toSetup.Calls 2 "A" {} [] call ∧
      call.handler call.site = .fail (.fault (malformed "m")) ∧
      (call.work (probing reported).toSetup).result = .error (.fault (malformed "m")) ∧
      (call.work (probing reported).toSetup).state.1.raised = some reported.message ∧
      (call.told (probing reported).toSetup).lastRaised = some reported.message := by
  have hentries : (OrderedMap.ofList [("probe x", ""), ("boom y", ""), ("k", "v")]).entries =
      [("probe x", "")] ++ ("boom y", "") :: [("k", "v")] := rfl
  exact ⟨_, .own rfl rfl rfl hentries rfl rfl rfl, rfl, rfl, rfl, rfl⟩

/-- A handler's own fault that no strictness below 4 raises ends the evaluation off the record, when
a fault of the same text has been raised and recovered from before. -/
theorem own_fault_not_putToPolicy :
    ∃ call, (probing (malformed "m")).Calls call ∧
      call.handler call.site = .fail (.fault (malformed "m")) ∧
      (probing (malformed "m")).policy.decision (malformed "m").severity = .silent ∧
      ¬ call.PutToPolicy (probing (malformed "m")).toSetup (malformed "m") ∧
      (evaluate "A" (probing (malformed "m"))).result = .error (malformed "m") := by
  obtain ⟨call, hcall, hhandler, herror, hraised, -⟩ := exists_call_probing (malformed "m")
  refine ⟨call, .evaluate rfl hcall, hhandler, rfl, ?_, rfl⟩
  exact Setup.not_putToPolicy_of_passedOn (hcall.passedOn herror rfl hraised)

/-- A handler's own fault is put to the policy after a fault of another text. -/
theorem putToPolicy_iff_probing :
    ∃ call, (probing (malformed "n")).Calls call ∧
      (call.work (probing (malformed "n")).toSetup).result = .error (.fault (malformed "m")) ∧
      call.PutToPolicy (probing (malformed "n")).toSetup (malformed "m") := by
  obtain ⟨call, hcall, -, herror, -, hlast⟩ := exists_call_probing (malformed "n")
  have hcalls : (probing (malformed "n")).Calls call := .evaluate rfl hcall
  refine ⟨call, hcalls, herror, (putToPolicy_iff hcalls herror rfl).2 ?_⟩
  rw [hlast]
  decide

end Engine

end IniCompose
