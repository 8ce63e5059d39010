import IniCompose.Proofs.Evaluation.Steps

/-!
# What the two composing handlers do

The handler of `use` evaluates the named section and merges its state; without a name it reports the
option. The other one appends the option to the actions.
-/
namespace IniCompose.Setup

open Journaled

variable (setup : Setup) (nested : Evaluator) (site : OptionSite) (s : Session)
  (state : SectionState)

/-! ## Requests -/

theorem run_request (request : Request) (t : Session × SectionState) :
    setup.run nested (.ask request .done) t = setup.answer nested request t := by
  rw [run_ask, bind_apply]
  rcases setup.answer nested request t with ⟨_ | answer, after, journal⟩ <;>
    simp [pure_apply, Outcome.after]

theorem run_report (severity : Severity) (fault : Fault) :
    setup.run nested (Program.report severity fault) (s, state) =
      ⟨.ok (setup.report severity fault s).result, ((setup.report severity fault s).state, state),
        (setup.report severity fault s).journal⟩ :=
  run_request setup nested (.report severity fault) (s, state)

theorem run_evaluate (name : String) :
    setup.run nested (Program.evaluate name) (s, state) =
      ⟨.ok (nested name s).result, ((nested name s).state, state), (nested name s).journal⟩ :=
  run_request setup nested (.evaluate name) (s, state)

theorem run_debug (level : UInt8) (text : String) :
    setup.run nested (Program.debug level text) (s, state) =
      ⟨.ok (), (s, state), setup.debugNotice level text⟩ :=
  (run_request setup nested (.debug level text) (s, state)).trans (debug_apply setup level text _)

theorem run_modifyState (f : SectionState → SectionState) :
    setup.run nested (Program.modifyState f) (s, state) = ⟨.ok (), (s, f state), []⟩ := rfl

theorem run_ofAnswer {α : Type} (answer : Except Fault α) (t : Session × SectionState) :
    setup.run nested (Program.ofAnswer answer) t = ⟨answer.mapError .fault, t, []⟩ := by
  cases answer <;> rfl

/-! ## Handlers -/

theorem run_addAction :
    setup.run nested (Program.addAction site) (s, state) =
      ⟨.ok (), (s, state.addAction
        ⟨site.key.operation.getD "", site.key.parameter, site.value, site.sectionName⟩), []⟩ := rfl

/-- The fault of a `use` that names no section. -/
def missingName : Fault :=
  .optionFormat site.sectionName site.rawKey "'use' requires a section name"

theorem run_importSection_of_empty (h : site.key.parameter = "") :
    setup.run nested (importSection site) (s, state) =
      let reported := setup.report .minor (missingName site) s
      ⟨reported.result.mapError .fault, (reported.state, state), reported.journal⟩ := by
  simp only [importSection, h, if_true, run_bind, bind_apply, run_report, run_ofAnswer]
  simp [Outcome.after, missingName]

theorem run_importSection (h : site.key.parameter ≠ "") :
    setup.run nested (importSection site) (s, state) =
      let imported := nested site.key.parameter s
      let journal := setup.debugNotice 2
        ("[" ++ site.sectionName ++ "] use [" ++ site.key.parameter ++ "]") ++ imported.journal
      match imported.result with
      | .ok other => ⟨.ok (), (imported.state, state.merge other), journal⟩
      | .error fault => ⟨.error (.fault fault), (imported.state, state), journal⟩ := by
  simp only [importSection, h, if_false, run_bind, bind_apply, run_debug, run_evaluate,
    run_ofAnswer]
  cases (nested site.key.parameter s).result <;>
    simp [Outcome.after, run_modifyState]

end IniCompose.Setup
