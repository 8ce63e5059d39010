import IniCompose.Proofs.Evaluation.Routing

/-!
# Options that are passed over

When a handler fails and the fault is not raised, the next option is evaluated. What the handler did
to the section before it failed is not undone: the evaluation goes on with the last state that the
handler set, and with the state from before the option only if it has set none.
-/
namespace IniCompose

/-- The state that a request sets. -/
def Request.written? : Request → Option SectionState
  | .setState written => some written
  | _ => none

namespace Setup

variable (setup : Setup)

/-- The states that a program sets when it is run, in order. -/
def written {α : Type} (nested : Evaluator) :
    Program α → Session × SectionState → List SectionState
  | .done _, _ => []
  | .fail _, _ => []
  | .ask request next, s =>
    let asked := setup.answer nested request s
    match asked.result with
    | .ok answer => request.written?.toList ++ written nested (next answer) asked.state
    | .error _ => request.written?.toList

theorem state_answer (nested : Evaluator) (request : Request) (s : Session × SectionState) :
    (setup.answer nested request s).state.2 = request.written?.getD s.2 := by
  cases request with
  | debug level text =>
    rw [answer, debug_apply]
    rfl
  | _ => rfl

/-- Induction on the program: requests that set no state leave the section alone. -/
theorem state_run {α : Type} (nested : Evaluator) (program : Program α)
    (s : Session × SectionState) :
    (setup.run nested program s).state.2 = (setup.written nested program s).getLast?.getD s.2 := by
  induction program generalizing s with
  | done a => rfl
  | fail error => rfl
  | ask request next ih =>
    have hasked := setup.state_answer nested request s
    rw [run_ask, Journaled.bind_apply, written]
    cases (setup.answer nested request s).result with
    | ok answer =>
      simp only [Outcome.state_after, ih answer, hasked, List.getLast?_append]
      cases request.written? <;> simp
    | error error =>
      simp only [hasked]
      cases request.written? <;> simp

end Setup

namespace Call

/-- The states that the handler sets, in order. -/
def written (call : Call) (setup : Setup) : List SectionState :=
  setup.written (setup.evaluateWithin call.budget) (call.handler call.site)
    (call.session, call.state)

/-- The last state that the handler sets, or the one from before the option. -/
def left (call : Call) (setup : Setup) : SectionState :=
  (call.written setup).getLast?.getD call.state

theorem state_work (call : Call) (setup : Setup) :
    (call.work setup).state.2 = call.left setup :=
  setup.state_run _ _ _

theorem left_eq_state_iff (call : Call) (setup : Setup) :
    call.left setup = call.state ↔ ∀ last ∈ (call.written setup).getLast?, last = call.state := by
  unfold left
  cases (call.written setup).getLast? <;> simp

end Call

namespace Engine

variable {engine : Engine} {call : Call}

/-- When a handler fails and that is passed over, the section is left as the handler left it, and
the next option is evaluated on that. The option has no effect on the section exactly if the handler
has set no state, or in the end the one from before. -/
theorem option_passedOver (h : engine.Calls call) {error : HandlerError}
    (herror : (call.work engine.toSetup).result = .error error)
    (hskip : (engine.settle call.site error (call.work engine.toSetup).state.1).result = .ok ()) :
    (engine.evalOption (engine.evaluateWithin call.budget) call.site.sectionName call.option.1
      call.option.2 call.state call.session).result = .ok (call.left engine.toSetup) ∧
    (∃ t told, call.outcome engine.toSetup =
      (engine.evalOptions (engine.evaluateWithin call.budget) call.site.sectionName call.rest
        (call.left engine.toSetup) t).after told) ∧
    (call.left engine.toSetup = call.state ↔
      ∀ last ∈ (call.written engine.toSetup).getLast?, last = call.state) := by
  obtain ⟨name, s, heard, hcalls, -⟩ := h.exists_run
  obtain ⟨resolved, hresolve, hhandler, hsite⟩ := hcalls.resolves
  have houtcome := hcalls.outcome_of_error herror
  refine ⟨?_, ?_, call.left_eq_state_iff _⟩
  · rw [← Call.state_work, Setup.evalOption_of_handler _ hresolve hhandler, ← hsite,
      Setup.dispatch_apply]
    unfold Call.work at herror hskip ⊢
    simp [herror, hskip, Except.map]
  · rw [← Call.state_work]
    simp only [hskip] at houtcome
    exact ⟨_, _, houtcome⟩

/-- A handler that assigns a key and then fails, where that is passed over. -/
def halfway : Engine :=
  .lenient ⟨.ofList [("A", .ofList [("half done", "")])]⟩
    (Registry.standard.register "half" fun _ => do
      Program.modifyState (·.set "k" "1")
      throw (.text "no"))

/-- The call of the handler of `halfway`. -/
theorem exists_call_halfway :
    ∃ call, halfway.Calls call ∧ (call.work halfway.toSetup).result = .error (.text "no") ∧
      (halfway.settle call.site (.text "no") (call.work halfway.toSetup).state.1).result = .ok () ∧
      call.state = ∅ ∧ call.left halfway.toSetup = SectionState.set ∅ "k" "1" := by
  have hentries : (OrderedMap.ofList [("half done", "")]).entries = [] ++ ("half done", "") :: [] :=
    rfl
  have hcall : halfway.toSetup.Calls 2 "A" {} [] _ := .own rfl rfl rfl hentries rfl rfl rfl
  exact ⟨_, .evaluate rfl hcall, rfl, rfl, rfl, (Call.state_work _ _).symm.trans rfl⟩

/-- The key that the failing handler assigned stays assigned. -/
theorem option_passedOver_halfway :
    ∃ call, halfway.Calls call ∧ (call.work halfway.toSetup).result = .error (.text "no") ∧
      (halfway.settle call.site (.text "no") (call.work halfway.toSetup).state.1).result = .ok () ∧
      (halfway.evalOption (halfway.evaluateWithin call.budget) call.site.sectionName call.option.1
        call.option.2 call.state call.session).result = .ok (SectionState.set ∅ "k" "1") := by
  obtain ⟨call, hcall, herror, hskip, -, hleft⟩ := exists_call_halfway
  exact ⟨call, hcall, herror, hskip, hleft ▸ (option_passedOver hcall herror hskip).1⟩

/-- An option that is passed over may have an effect on the section. -/
theorem passedOver_option_has_effect :
    ∃ call, halfway.Calls call ∧ (call.work halfway.toSetup).result = .error (.text "no") ∧
      (halfway.settle call.site (.text "no") (call.work halfway.toSetup).state.1).result = .ok () ∧
      (call.work halfway.toSetup).state.2 ≠ call.state ∧
      (evaluate "A" halfway).result = .ok (SectionState.set ∅ "k" "1") := by
  obtain ⟨call, hcall, herror, hskip, hstate, hleft⟩ := exists_call_halfway
  refine ⟨call, hcall, herror, hskip, ?_, rfl⟩
  rw [Call.state_work, hleft, hstate]
  decide

end Engine

end IniCompose
