import IniCompose.Proofs.Engine.Steps
import IniCompose.Proofs.Evaluation.Faithful

/-!
# Forgetting the kept results

Evaluating a section again after the kept results have been forgotten gives the same state, if every
kept result is what its section comes to by itself. That is so as long as handlers can tell nothing
of the run around them and no section is left with a state after a cycle has been found.
-/
namespace IniCompose

/-- Sections that are evaluated one after the other keep a session sound. -/
theorem Setup.sound_evaluateEach {setup : Setup} (hdiscreet : setup.registry.Only setup.Discreet)
    (names : List String) {s : Session} (hs : setup.Sound (setup.document.size + 1) s)
    (hfatal : (setup.evaluateEach names s).journal.CyclesFatal) :
    setup.Sound (setup.document.size + 1) (setup.evaluateEach names s).state := by
  induction names generalizing s with
  | nil => exact hs
  | cons name rest ih =>
    have hfirst : setup.Upholds _ name (setup.evaluate name s) :=
      upholds_evaluateWithin hdiscreet hs
    rw [evaluateEach_cons] at hfatal ⊢
    dsimp only at hfatal ⊢
    split at hfatal
    · exact ih (hfirst.sound hfatal.left) hfatal.right
    · exact hfirst.sound hfatal

namespace Engine

variable {engine start : Engine} {name : String}

/-- The engines that evaluations lead to, if none of them leaves a section with a state after a
cycle has been found. -/
inductive EvaluatedFrom (start : Engine) : Engine → Prop
  | start : EvaluatedFrom start start
  | evaluate {engine : Engine} (name : String) :
    EvaluatedFrom start engine → (evaluate name engine).journal.CyclesFatal →
    EvaluatedFrom start (evaluate name engine).state
  | evaluateAll {engine : Engine} :
    EvaluatedFrom start engine → (evaluateAll engine).journal.CyclesFatal →
    EvaluatedFrom start (evaluateAll engine).state

/-- Every kept result is what its section comes to by itself. -/
def Faithful (engine : Engine) : Prop :=
  ∀ name state, engine.cache.get? name = some state → engine.toSetup.Yields name (.ok state)

/-- The session of a run starts sound. -/
theorem Faithful.sound (h : engine.Faithful) :
    engine.toSetup.Sound (engine.document.size + 1) { cache := engine.cache } :=
  ⟨Setup.room_of_inactive rfl, h _ _, Setup.warrants_of_forgotten rfl⟩

theorem faithful_evaluate (h : engine.Faithful)
    (hdiscreet : engine.registry.Only engine.toSetup.Discreet) (name : String)
    (hfatal : (evaluate name engine).journal.CyclesFatal) :
    (evaluate name engine).state.Faithful := by
  cases hcache : engine.cache.get? name with
  | some state => rwa [evaluate_of_cached hcache]
  | none =>
    rw [evaluate_of_uncached hcache] at hfatal ⊢
    exact fun _ _ => ((Setup.upholds_evaluateWithin hdiscreet h.sound).sound hfatal).faithful

theorem faithful_evaluateAll (h : engine.Faithful)
    (hdiscreet : engine.registry.Only engine.toSetup.Discreet)
    (hfatal : (evaluateAll engine).journal.CyclesFatal) : (evaluateAll engine).state.Faithful :=
  fun _ _ => (Setup.sound_evaluateEach hdiscreet engine.document.names h.sound hfatal).faithful

/-- A state that a section is evaluated to is what the section comes to by itself. -/
theorem Faithful.yields (h : engine.Faithful)
    (hdiscreet : engine.registry.Only engine.toSetup.Discreet) {state : SectionState}
    (hfatal : (evaluate name engine).journal.CyclesFatal)
    (hok : (evaluate name engine).result = .ok state) : engine.toSetup.Yields name (.ok state) := by
  cases hcache : engine.cache.get? name with
  | some kept =>
    rw [evaluate_of_cached hcache] at hok
    cases hok
    exact h name _ hcache
  | none =>
    rw [evaluate_of_uncached hcache] at hfatal hok
    exact (Setup.upholds_evaluateWithin hdiscreet h.sound).completes hfatal hok

/-- Induction on the history. -/
theorem EvaluatedFrom.faithful (h : EvaluatedFrom start engine) (hstart : start.cache = ∅)
    (hdiscreet : start.registry.Only start.toSetup.Discreet) :
    engine.toSetup = start.toSetup ∧ engine.Faithful := by
  induction h with
  | start =>
    refine ⟨rfl, fun name state hkept => ?_⟩
    simp [hstart] at hkept
  | evaluate name _ hfatal ih =>
    obtain ⟨hsetup, hfaithful⟩ := ih
    rw [← hsetup] at hdiscreet
    refine ⟨(toSetup_evaluate name _).trans hsetup, ?_⟩
    exact faithful_evaluate hfaithful hdiscreet name hfatal
  | evaluateAll _ hfatal ih =>
    obtain ⟨hsetup, hfaithful⟩ := ih
    rw [← hsetup] at hdiscreet
    exact ⟨hsetup, faithful_evaluateAll hfaithful hdiscreet hfatal⟩

/-- Forgetting the kept results makes no difference to a section that is evaluated to a state,
where handlers can tell nothing of the run around them and no section is left with a state after a
cycle has been found. -/
theorem evaluate_invalidate {document : Document} {registry : Registry} {settings : Settings}
    (hstart : ofDocument document registry settings = .ok start)
    (hdiscreet : registry.Only start.toSetup.Discreet) (hengine : EvaluatedFrom start engine)
    (hfatal : (evaluate name engine).journal.CyclesFatal) {state : SectionState}
    (hok : (evaluate name engine).result = .ok state) :
    (evaluate name (evaluate name engine).state.invalidate).result = .ok state := by
  obtain ⟨-, hregistry, -, hcache⟩ := ofDocument_eq_ok hstart
  rw [← hregistry] at hdiscreet
  obtain ⟨hsetup, hfaithful⟩ := hengine.faithful hcache hdiscreet
  rw [← hsetup] at hdiscreet
  have hyields := hfaithful.yields hdiscreet hfatal hok
  have hforgotten : (evaluate name engine).state.invalidate.cache.get? name = none := rfl
  have hsame : (evaluate name engine).state.invalidate.toSetup = engine.toSetup :=
    toSetup_evaluate name engine
  rw [evaluate_of_uncached hforgotten]
  change ((evaluate name engine).state.invalidate.toSetup.evaluate name {}).result = .ok state
  rw [hsame]
  exact Setup.evaluate_of_yields hdiscreet hyields

/-! ## Recovering from nested faults -/

/-- A handler that imports a section if that can be evaluated. -/
def tryImport : Handler := fun site => do
  match ← Program.evaluate site.key.parameter with
  | .ok imported => Program.modifyState (·.merge imported)
  | .error _ => pure ()

/-- An engine with `use` and an operation that imports a section if that can be evaluated. -/
def trying (document : Document) : Engine :=
  .ordinary document (Registry.standard.register "try-use" tryImport)

theorem discreet_trying (document : Document) :
    (trying document).registry.Only (trying document).toSetup.Discreet := by
  refine Registry.only_register_standard (by decide) Setup.discreet_standard fun site => ?_
  refine ⟨trivial, fun answer => ?_⟩
  cases answer with
  | error fault => trivial
  | ok imported => exact ⟨trivial, fun _ => ⟨trivial, fun _ => trivial⟩⟩

/-- A section that tries an absent one, and then imports one. -/
def forgiving : Document :=
  ⟨.ofList [("A", .ofList [("try-use Ghost", ""), ("use B", "")]), ("B", .ofList [("k", "v")])]⟩

/-- The absent section is no cycle. -/
theorem evaluate_invalidate_forgiving :
    (trying forgiving).EvaluatedFrom (evaluate "B" (trying forgiving)).state ∧
    ∃ state, (evaluate "A" (evaluate "B" (trying forgiving)).state).result = .ok state ∧
      (evaluate "A"
        (evaluate "A" (evaluate "B" (trying forgiving)).state).state.invalidate).result =
          .ok state := by
  have hstart : ofDocument forgiving (trying forgiving).registry {} = .ok (trying forgiving) := rfl
  have hengine : (trying forgiving).EvaluatedFrom (evaluate "B" (trying forgiving)).state :=
    .evaluate "B" .start (by decide)
  exact ⟨hengine, _, rfl,
    evaluate_invalidate hstart (discreet_trying forgiving) hengine (by decide) rfl⟩

/-- Two sections that try each other. -/
def entangled : Document :=
  ⟨.ofList [("A", .ofList [("try-use B", ""), ("a", "1")]),
    ("B", .ofList [("try-use A", ""), ("b", "1")])]⟩

/-- The section that is requested within the other finds a cycle and recovers. It is kept with less
than it comes to when it is evaluated first. -/
theorem evaluate_invalidate_entangled :
    ofDocument entangled (trying entangled).registry {} = .ok (trying entangled) ∧
    (trying entangled).registry.Only (trying entangled).toSetup.Discreet ∧
    ∃ state state', (evaluate "B" (evaluate "A" (trying entangled)).state).result = .ok state ∧
      (evaluate "B"
        (evaluate "B" (evaluate "A" (trying entangled)).state).state.invalidate).result =
          .ok state' ∧
      state.options ≠ state'.options :=
  ⟨rfl, discreet_trying entangled, _, _, rfl, rfl, by decide⟩

end Engine

end IniCompose
