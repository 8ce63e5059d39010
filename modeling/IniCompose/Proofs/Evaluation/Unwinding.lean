import IniCompose.Proofs.Evaluation.Conclusive
import IniCompose.Proofs.Evaluation.Entries
import IniCompose.Proofs.Evaluation.Nesting

/-!
# Traces where faults are passed on

Where every handler fails with the faults that it is answered, an evaluation that succeeds closes
every bracket that it opens, and one that fails has a raised fault on the record, after which the
handlers it has started end with an error, innermost first. Entries are at the depth of the sections
that are open.
-/
namespace IniCompose

/-- How the trace of an evaluation goes on where some brackets are open: if it succeeds it closes
what it opens; if it fails it goes up to the entry of the raised fault, and then the handlers that
it has started end. -/
inductive Trace.Reads {α : Type} (opened : Trace) : Except Fault α → Trace → Prop
  | ok {a trace} : trace.scan opened = some opened → Reads opened (.ok a) trace
  | error {fault severity before inner depth} : before.scan opened = some (inner ++ opened) →
    depth = (inner ++ opened).sections →
    Reads opened (.error fault)
      (before ++ Policy.faultEntry severity .raise fault depth :: inner.unwind)

namespace Trace.Reads

variable {α β : Type} {opened trace : Trace} {result : Except Fault α} {fault : Fault}

theorem map (h : Reads opened result trace) (f : α → β) : Reads opened (result.map f) trace := by
  cases h with
  | ok h => exact .ok h
  | error h hdepth => exact .error h hdepth

/-- A failure is read alike whatever a success would have given. -/
theorem of_error (h : Reads opened (.error fault : Except Fault α) trace) :
    Reads opened (.error fault : Except Fault β) trace := by
  cases h with
  | error h hdepth => exact .error h hdepth

theorem after {first : Trace} (h : Reads opened result trace)
    (hfirst : first.scan opened = some opened) : Reads opened result (first ++ trace) := by
  cases h with
  | ok h => exact .ok (by rw [scan_append_of_some hfirst, h])
  | @error _ _ before _ _ h hdepth =>
    rw [← List.append_assoc]
    exact .error (by rw [scan_append_of_some hfirst, h]) hdepth

/-- A failure inside a bracket that has been opened. -/
theorem enclose {entry : Entry} (h : Reads (entry :: opened) (.error fault : Except Fault α) trace)
    (hkind : entry.kind = .sectionEntry ∨ entry.kind = .handlerEntry)
    (hdepth : entry.depth = sections (entry :: opened)) :
    Reads opened (.error fault : Except Fault α) (entry :: trace ++ unwind [entry]) := by
  cases h with
  | @error _ severity before inner depth h hsections =>
    have hassoc : inner ++ entry :: opened = inner ++ [entry] ++ opened := by simp
    rw [hassoc] at h hsections
    have hread : Reads opened (.error fault : Except Fault α)
        (entry :: before ++ Policy.faultEntry severity .raise fault depth ::
          (inner ++ [entry]).unwind) :=
      .error ((scan_open hkind hdepth before).trans h) hsections
    simpa using hread

end Trace.Reads

namespace Setup

/-- How things stand before a part of an evaluation: nothing has been raised, requests may nest, and
as many sections are active as are open. -/
structure Stands (setup : Setup) (budget : Nat) (opened : Trace) (s : Session) : Prop where
  unraised : s.raised = none
  room : setup.Room budget s
  sections_eq : opened.sections = s.active.depth

/-- A part of an evaluation adds to the trace what fits where some brackets are open. Nothing has
been raised if it succeeds, and its fault is the remembered one if it fails. -/
structure Continues {α : Type} (opened : Trace) (outcome : Outcome Session Fault α) : Prop where
  reads : Trace.Reads opened outcome.result outcome.journal.engineTrace
  unraised : ∀ a, outcome.result = .ok a → outcome.state.raised = none
  raised : ∀ fault, outcome.result = .error fault → outcome.state.raised = some fault.message

variable {setup : Setup} {budget : Nat} {opened : Trace} {s t : Session} {α β : Type}

theorem Stands.congr (h : setup.Stands budget opened s) (hraised : t.raised = none)
    (hactive : t.active = s.active) : setup.Stands budget opened t :=
  ⟨hraised, h.room.congr hactive, by rw [h.sections_eq, hactive]⟩

namespace Continues

variable {outcome : Outcome Session Fault α} {journal : Journal}

theorem of_ok {a : α} (hscan : journal.engineTrace.scan opened = some opened)
    (hunraised : s.raised = none) : Continues opened ⟨.ok a, s, journal⟩ where
  reads := .ok hscan
  unraised _ _ := hunraised
  raised _ herror := by cases herror

theorem of_error {fault : Fault}
    (hreads : Trace.Reads opened (.error fault : Except Fault β) journal.engineTrace)
    (hraised : s.raised = some fault.message) :
    Continues opened (⟨.error fault, s, journal⟩ : Outcome Session Fault α) where
  reads := hreads.of_error
  unraised _ hok := by cases hok
  raised _ herror := by
    cases herror
    exact hraised

theorem scan_eq (h : Continues opened outcome) {a : α} (hok : outcome.result = .ok a) :
    outcome.journal.engineTrace.scan opened = some opened := by
  have hreads := h.reads
  rw [hok] at hreads
  cases hreads with
  | ok h => exact h

theorem map (h : Continues opened outcome) (f : α → β) :
    Continues opened ⟨outcome.result.map f, outcome.state, outcome.journal⟩ where
  reads := h.reads.map f
  unraised _ hok := by
    obtain ⟨a, hresult, -⟩ := Except.ok_of_map_eq_ok hok
    exact h.unraised a hresult
  raised fault herror := h.raised fault (Except.error_of_map_eq_error herror)

theorem after (h : Continues opened outcome)
    (hjournal : journal.engineTrace.scan opened = some opened) :
    Continues opened (outcome.after journal) where
  reads := by
    rw [Outcome.journal_after, Journal.engineTrace_append]
    exact h.reads.after hjournal
  unraised := h.unraised
  raised := h.raised

/-- One part, and where it succeeds another one. -/
theorem bind {x : Evaluation α} {next : α → Evaluation β} (hx : Continues opened (x s))
    (hnext : ∀ a, (x s).result = .ok a → Continues opened (next a (x s).state)) :
    Continues opened ((x >>= next) s) := by
  rw [Journaled.bind_apply]
  cases hresult : (x s).result with
  | ok a => exact (hnext a hresult).after (hx.scan_eq hresult)
  | error fault =>
    have hreads := hx.reads
    rw [hresult] at hreads
    exact of_error hreads (hx.raised fault hresult)

end Continues

/-! ## Faults -/

theorem continues_report (hunraised : s.raised = none)
    (hsections : opened.sections = s.active.depth) (severity : Severity) (fault : Fault) :
    Continues opened (setup.report severity fault s) := by
  have hentry := setup.engineTrace_report severity fault s
  rw [report_apply] at hentry ⊢
  by_cases hraise : setup.policy.decision severity = .raise
  · simp only [hraise, if_true] at hentry ⊢
    refine .of_error (β := Unit) ?_ rfl
    have hscan : Trace.scan [] opened = some ([] ++ opened) := rfl
    rw [hentry]
    exact .error hscan hsections.symm
  · simp only [hraise, if_false] at hentry ⊢
    refine .of_ok ?_ hunraised
    rw [hentry]
    exact Trace.scan_leaf (.inr rfl) hsections.symm

/-- Where nothing has been raised, a handler's error is its own. -/
theorem continues_settle (hunraised : s.raised = none)
    (hsections : opened.sections = s.active.depth) (site : OptionSite) (error : HandlerError) :
    Continues opened (setup.settle site error s) := by
  rw [settle_apply, if_neg (by simp [hunraised])]
  exact continues_report hunraised hsections _ _

/-! ## Handlers -/

/-- What a handler's requests add to the trace: they fit, and nothing has been raised; or a fault
has been raised, with which the handler fails. -/
def Works {α : Type} (opened : Trace)
    (outcome : Outcome (Session × SectionState) HandlerError α) : Prop :=
  (outcome.journal.engineTrace.scan opened = some opened ∧ outcome.state.1.raised = none) ∨
  ∃ error fault, outcome.result = .error error ∧ error.fault? = some fault ∧
    outcome.state.1.raised = some fault.message ∧
    Trace.Reads opened (.error fault : Except Fault Unit) outcome.journal.engineTrace

theorem Works.after {outcome : Outcome (Session × SectionState) HandlerError α}
    (h : Works opened outcome) {journal : Journal}
    (hjournal : journal.engineTrace.scan opened = some opened) :
    Works opened (outcome.after journal) := by
  unfold Works
  rw [Outcome.journal_after, Journal.engineTrace_append]
  obtain ⟨hscan, hunraised⟩ | ⟨error, fault, herror, hfault, hraised, hreads⟩ := h
  · exact .inl ⟨by rw [Trace.scan_append_of_some hjournal, hscan], hunraised⟩
  · exact .inr ⟨error, fault, herror, hfault, hraised, hreads.after hjournal⟩

/-- What is asked for apart from other sections and the policy is answered without an entry of the
engine and without a change of the session. -/
theorem exists_answer_aside (nested : Evaluator) {request : Request}
    (hevaluate : ∀ name, request ≠ .evaluate name)
    (hreport : ∀ severity fault, request ≠ .report severity fault) (s : Session × SectionState) :
    ∃ answer state journal,
      setup.answer nested request s = ⟨.ok answer, (s.1, state), journal⟩ ∧
        journal.engineTrace = [] := by
  cases request with
  | evaluate name => exact absurd rfl (hevaluate name)
  | report severity fault => exact absurd rfl (hreport severity fault)
  | debug level text =>
    rw [answer, debug_apply]
    exact ⟨(), s.2, _, rfl, engineTrace_debugNotice level text⟩
  | state | setState _ | record _ _ _ | depth | settings | note _ => exact ⟨_, _, _, rfl, rfl⟩

/-- A program that is bound to fail adds nothing and changes nothing of the session. -/
theorem run_of_failsWith (nested : Evaluator) {program : Program α} {fault : Fault}
    (hfails : program.FailsWith fault) (hpass : program.PassesOn) (s : Session × SectionState) :
    ∃ error state journal, setup.run nested program s = ⟨.error error, (s.1, state), journal⟩ ∧
      error.fault? = some fault ∧ journal.engineTrace = [] := by
  induction program generalizing s with
  | done a => exact absurd hfails id
  | fail error => exact ⟨error, s.2, [], rfl, hfails, rfl⟩
  | ask request next ih =>
    obtain ⟨hevaluate, hreport⟩ := hfails.request_ne hpass
    obtain ⟨answer, state, told, hanswer, htold⟩ :=
      setup.exists_answer_aside nested hevaluate hreport s
    obtain ⟨error, state', journal, hrest, hfault, hjournal⟩ :=
      ih answer (hfails answer) (hpass.next answer) (s.1, state)
    rw [run_ask, Journaled.bind_apply, hanswer]
    dsimp only
    rw [hrest]
    exact ⟨error, state', told ++ journal, rfl, hfault, by simp [htold, hjournal]⟩

/-- A program goes on after an answer, and if that is a fault it fails with it. -/
theorem works_after_answer {nested : Evaluator} {asked : Outcome Session Fault β}
    (hasked : Continues opened asked) {next : Except Fault β → Program α}
    (hfails : ∀ fault, (next (.error fault)).FailsWith fault)
    (hpass : ∀ answer, (next answer).PassesOn) {state : SectionState}
    (hrest : asked.state.raised = none →
      Works opened (setup.run nested (next asked.result) (asked.state, state))) :
    Works opened
      ((setup.run nested (next asked.result) (asked.state, state)).after asked.journal) := by
  cases hresult : asked.result with
  | ok a =>
    rw [hresult] at hrest
    exact (hrest (hasked.unraised a hresult)).after (hasked.scan_eq hresult)
  | error fault =>
    have hreads := hasked.reads
    obtain ⟨error, state', journal, hrun, hfault, hjournal⟩ :=
      setup.run_of_failsWith nested (hfails fault) (hpass _) (asked.state, state)
    rw [hresult] at hreads
    rw [hrun]
    refine .inr ⟨error, fault, rfl, hfault, hasked.raised fault hresult, ?_⟩
    simpa [Outcome.after, hjournal] using hreads.of_error

section

variable (hnested : ∀ name opened s, setup.Stands budget opened s →
  Continues opened (setup.evaluateWithin budget name s))

include hnested

/-- Induction on the program: it goes on after every answer but a fault. -/
theorem works_run {program : Program α} (hpass : program.PassesOn) {s : Session × SectionState}
    (h : setup.Stands budget opened s.1) :
    Works opened (setup.run (setup.evaluateWithin budget) program s) := by
  induction program generalizing s with
  | done a => exact .inl ⟨rfl, h.unraised⟩
  | fail error => exact .inl ⟨rfl, h.unraised⟩
  | ask request next ih =>
    have hgrows := setup.bracketed_grows.answer (setup.grows_evaluateWithin budget) request s
    have hother (hevaluate : ∀ name, request ≠ .evaluate name)
        (hreport : ∀ severity fault, request ≠ .report severity fault) :
        Works opened (setup.run (setup.evaluateWithin budget) (.ask request next) s) := by
      obtain ⟨answer, state, told, hanswer, htold⟩ :=
        setup.exists_answer_aside (setup.evaluateWithin budget) hevaluate hreport s
      rw [run_ask, Journaled.bind_apply, hanswer]
      exact (ih answer (hpass.next answer) (s := (s.1, state)) h).after (by rw [htold]; rfl)
    cases request with
    | evaluate name =>
      exact works_after_answer (hnested name opened s.1 h) hpass.1 hpass.2
        fun hunraised => ih _ (hpass.2 _) (h.congr hunraised hgrows.active)
    | report severity fault =>
      exact works_after_answer (continues_report h.unraised h.sections_eq severity fault) hpass.1
        hpass.2 fun hunraised => ih _ (hpass.2 _) (h.congr hunraised hgrows.active)
    | state | setState _ | record _ _ _ | depth | settings | debug _ _ | note _ =>
      exact hother (by simp) (by simp)

omit hnested in
theorem sections_startEntry (site : OptionSite) (depth : Nat) :
    Trace.sections (site.startEntry depth :: opened) = opened.sections := by
  simp [Trace.sections_cons, OptionSite.startEntry]

omit hnested in
/-- A handler that is started and ended. -/
theorem scan_handle (site : OptionSite) (status : String) {depth : Nat} {journal : Journal}
    (hdepth : opened.sections = depth)
    (hinner : journal.engineTrace.scan (site.startEntry depth :: opened) =
      some (site.startEntry depth :: opened)) :
    (Journal.engineTrace (.entry (site.startEntry depth) :: journal ++
      [.entry (site.endEntry depth status)])).scan opened = some opened := by
  have hcount : depth = Trace.sections (site.startEntry depth :: opened) :=
    (sections_startEntry site depth ▸ hdepth).symm
  rw [List.cons_append, Journal.engineTrace_entry_cons, Journal.engineTrace_append,
    Trace.scan_open (.inr rfl) hcount, Trace.scan_append_of_some hinner]
  exact Trace.scan_close (.inr ⟨rfl, rfl⟩) rfl rfl hcount

/-- A handler is ended in any case, with an error if a fault has been raised. -/
theorem continues_dispatch {handler : Handler} {site : OptionSite}
    (hpass : (handler site).PassesOn) (state : SectionState)
    (h : setup.Stands budget opened s) :
    Continues opened (setup.dispatch (setup.evaluateWithin budget) handler site state s) := by
  have hinside : Trace.sections (site.startEntry s.active.depth :: opened) = s.active.depth := by
    rw [sections_startEntry, h.sections_eq]
  have hworks : Works (site.startEntry s.active.depth :: opened) _ :=
    works_run hnested hpass (s := (s, state)) ⟨h.unraised, h.room, hinside⟩
  have hactive := (setup.bracketed_grows.run (setup.grows_evaluateWithin budget)
    (handler site) (s, state)).active
  rw [dispatch_apply]
  generalize setup.run (setup.evaluateWithin budget) (handler site) (s, state) = outcome
    at hworks hactive ⊢
  obtain ⟨result, ⟨t, left⟩, journal⟩ := outcome
  cases result with
  | ok _ =>
    obtain ⟨hscan, hunraised⟩ | ⟨_, _, herror, -⟩ := hworks
    · exact .of_ok (scan_handle site "ok" h.sections_eq hscan) hunraised
    · cases herror
  | error error =>
    obtain ⟨hscan, hunraised⟩ | ⟨_, fault, herror, hfault, hraised, hreads⟩ := hworks
    · have hsettled : Continues opened (setup.settle site error t) :=
        continues_settle hunraised (by rw [h.sections_eq, hactive]) site error
      have hwhole := (hsettled.map fun _ => left).after
        (scan_handle site "error" h.sections_eq hscan)
      simpa [Outcome.after] using hwhole
    · cases herror
      dsimp only
      rw [settle_of_known hfault hraised]
      have hends : Trace.unwind [site.startEntry s.active.depth] =
          [site.endEntry s.active.depth "error"] := rfl
      have hwhole := hreads.enclose (.inr rfl) hinside.symm
      refine .of_error (β := Unit) ?_ hraised
      simpa [hends] using hwhole

/-! ## Options and sections -/

theorem continues_evalOption (hpass : setup.registry.PassesOn) (sectionName stored value : String)
    (state : SectionState) (h : setup.Stands budget opened s) :
    Continues opened
      (setup.evalOption (setup.evaluateWithin budget) sectionName stored value state s) := by
  cases hresolve : setup.registry.resolveKey sectionName stored with
  | error fault =>
    rw [evalOption_of_error setup hresolve]
    exact (continues_report h.unraised h.sections_eq _ fault).map fun _ => state
  | ok resolved =>
    cases hhandler : (resolved.handler <|> setup.registry.generic) with
    | some handler =>
      rw [evalOption_of_handler setup hresolve hhandler]
      have hheld := Registry.holds_of_resolveKey hresolve hhandler
      exact continues_dispatch hnested (hpass handler hheld _) state h
    | none =>
      rw [evalOption_of_none setup hresolve hhandler]
      exact .of_ok (Trace.scan_leaf (.inl rfl) h.sections_eq.symm) h.unraised

theorem continues_evalOptions (hpass : setup.registry.PassesOn) (sectionName : String)
    (options : List (String × String)) (state : SectionState)
    (h : setup.Stands budget opened s) :
    Continues opened
      (setup.evalOptions (setup.evaluateWithin budget) sectionName options state s) := by
  induction options generalizing state s with
  | nil => exact .of_ok rfl h.unraised
  | cons option rest ih =>
    have hfirst := continues_evalOption hnested hpass sectionName option.1 option.2 state h
    have hgrows := setup.bracketed_grows.evalOption (setup.grows_evaluateWithin budget)
      sectionName option.1 option.2 state s
    exact hfirst.bind fun next hok => ih next (h.congr (hfirst.unraised next hok) hgrows.active)

/-- Only a section that exists makes requests. -/
theorem continues_evalBody (hpass : setup.registry.PassesOn) (name : String)
    (hunraised : s.raised = none) (hsections : opened.sections = s.active.depth)
    (hroom : setup.document.hasSection name → setup.Room budget s) :
    Continues opened (setup.evalBody (setup.evaluateWithin budget) name s) := by
  cases hoptions : setup.document.options? name with
  | some options =>
    rw [evalBody_of_some setup hoptions]
    have hstands : setup.Stands budget opened s :=
      ⟨hunraised, hroom (hasSection_iff.2 ⟨options, hoptions⟩), hsections⟩
    exact (continues_evalOptions hnested hpass name options.entries ∅ hstands).map some
  | none =>
    rw [evalBody_of_none setup hoptions]
    exact (continues_report hunraised hsections _ _).map fun _ => none

theorem continues_visit (hpass : setup.registry.PassesOn) (name : String)
    (h : setup.Stands (budget + 1) opened s) :
    Continues opened (setup.visit (setup.evaluateWithin budget) name s) := by
  cases hcache : s.cache.get? name with
  | some state =>
    rw [visit_of_cached setup hcache]
    refine .of_ok ?_ h.unraised
    rw [engineTrace_debugNotice, Trace.scan_nil]
  | none =>
    cases hpush : s.active.push name with
    | error fault =>
      rw [visit_of_active setup hcache hpush]
      have hscan : Trace.scan [] opened = some ([] ++ opened) := rfl
      exact .of_error (β := Unit) (.error hscan h.sections_eq.symm) rfl
    | ok active =>
      obtain ⟨-, hstack⟩ := ActiveSections.push_eq_ok_iff.1 hpush
      let opening : Trace.Entry := ⟨.sectionEntry, name, active.depth, .ofList []⟩
      have hinside : Trace.sections (opening :: opened) = active.depth := by
        simp [Trace.sections_cons, opening, h.sections_eq, ActiveSections.depth, hstack]
      have hbody : Continues (opening :: opened)
          (setup.evalBody (setup.evaluateWithin budget) name { s with active }) :=
        continues_evalBody hnested hpass name h.unraised hinside
          fun hexists => h.room.enter hexists hpush
      rw [visit_of_entered setup hcache hpush]
      generalize setup.evalBody (setup.evaluateWithin budget) name { s with active } = body
        at hbody ⊢
      obtain ⟨fault | state?, t, journal⟩ := body
      · have hends : Trace.unwind [opening] = [] := rfl
        have hwhole := hbody.reads.enclose (.inl rfl) hinside.symm
        refine .of_error (β := Option SectionState) ?_ (hbody.raised fault rfl)
        simpa [hends] using hwhole
      · refine .of_ok ?_ ((raised_leave _ _ _).trans (hbody.unraised state? rfl))
        have hscan := hbody.scan_eq rfl
        simp only [Journal.engineTrace_append, engineTrace_opening, List.singleton_append]
        rw [List.cons_append, Trace.scan_open (.inl rfl) hinside.symm,
          Trace.scan_append_of_some hscan]
        exact Trace.scan_close (.inl ⟨rfl, rfl⟩) rfl rfl hinside.symm

end

/-- Induction on the budget, which is never used up. -/
theorem continues_evaluateWithin (hpass : setup.registry.PassesOn) (name : String)
    (h : setup.Stands budget opened s) :
    Continues opened (setup.evaluateWithin budget name s) := by
  induction budget generalizing name opened s with
  | zero => exact absurd h.room not_room_zero
  | succ budget ih => exact continues_visit (fun name opened s hs => ih name hs) hpass name h

theorem continues_evaluateEach (hpass : setup.registry.PassesOn) (names : List String)
    (h : setup.Stands (setup.document.size + 1) opened s) :
    Continues opened (setup.evaluateEach names s) := by
  induction names generalizing s with
  | nil => exact .of_ok rfl h.unraised
  | cons name rest ih =>
    have hfirst : Continues opened (setup.evaluate name s) := continues_evaluateWithin hpass name h
    have hgrows : Grows s (setup.evaluate name s).state := setup.grows_evaluateWithin _ name s
    rw [evaluateEach_cons]
    dsimp only
    cases hresult : (setup.evaluate name s).result with
    | ok state =>
      exact (ih (h.congr (hfirst.unraised state hresult) hgrows.active)).after
        (hfirst.scan_eq hresult)
    | error fault =>
      simpa [hresult, Except.map] using hfirst.map fun _ => ()

end Setup

end IniCompose
