import IniCompose.Engine.Collapse
import IniCompose.Proofs.Evaluation.Kept

/-!
# What each operation of an engine does

One equation for each operation that is made of others, as for the parts of an evaluation.
-/
namespace IniCompose

open Journaled

theorem Document.state_loadInto {σ : Type} (files : Files) (document : Document)
    (paths : List String) (s : σ) : (Document.loadInto files document paths s).state = s := by
  induction paths generalizing document with
  | nil => rfl
  | cons path rest ih =>
    simp only [Document.loadInto, bind_apply, ofExcept_apply, tell_apply]
    cases Document.load files path with
    | error fault => rfl
    | ok loaded => exact ih _

namespace Setup

/-- Evaluates sections one after the other in one session, up to the first fault. -/
def evaluateEach (setup : Setup) (names : List String) : Evaluation Unit :=
  names.forM fun name => do
    let _ ← setup.evaluate name

theorem evaluateEach_cons (setup : Setup) (name : String) (rest : List String) (s : Session) :
    setup.evaluateEach (name :: rest) s =
      let first := setup.evaluate name s
      match first.result with
      | .ok _ => (setup.evaluateEach rest first.state).after first.journal
      | .error fault => ⟨.error fault, first.state, first.journal⟩ := by
  change ((setup.evaluate name >>= fun _ => Pure.pure ()) >>=
    fun _ => setup.evaluateEach rest) s = _
  rw [bind_apply, bind_apply]
  rcases setup.evaluate name s with ⟨_ | state, after, journal⟩
  · rfl
  · simp [pure_apply, Outcome.after]

theorem Bracketed.evaluateEach {setup : Setup} {R : Session → Journal → Session → Prop}
    (h : setup.Bracketed R) (names : List String) (s : Session) :
    R s (setup.evaluateEach names s).journal (setup.evaluateEach names s).state := by
  induction names generalizing s with
  | nil => exact h.refl s
  | cons name rest ih =>
    have hfirst : R s (setup.evaluate name s).journal (setup.evaluate name s).state :=
      h.evaluateWithin _ name s
    rw [evaluateEach_cons]
    dsimp only
    split
    · exact h.trans hfirst (ih _)
    · exact hfirst

theorem Kept.evaluateEach {setup : Setup} {R : Session → Journal → Session → Prop}
    (h : setup.Kept R) (names : List String) (s : Session) :
    R s (setup.evaluateEach names s).journal (setup.evaluateEach names s).state :=
  h.bracketed.evaluateEach names s

/-- A section that fails leaves its fault as the remembered one, also after others. -/
theorem raised_of_evaluateEach {setup : Setup} {names : List String} {s : Session} {fault : Fault}
    (h : (setup.evaluateEach names s).result = .error fault) :
    (setup.evaluateEach names s).state.raised = some fault.message := by
  induction names generalizing s with
  | nil => cases h
  | cons name rest ih =>
    rw [evaluateEach_cons] at h ⊢
    dsimp only at h ⊢
    cases hfirst : (setup.evaluate name s).result with
    | ok state =>
      rw [hfirst] at h
      exact ih h
    | error first =>
      rw [hfirst] at h
      cases h
      exact raised_of_visit hfirst

/-- The fault that a run fails with is the one that its journal shows as raised last. -/
theorem lastRaised_evaluateEach {setup : Setup} {names : List String} {s : Session} {fault : Fault}
    (hs : s.raised = none) (h : (setup.evaluateEach names s).result = .error fault) :
    (setup.evaluateEach names s).journal.lastRaised = some fault.message := by
  have hkept := setup.kept_raised.evaluateEach names s
  rw [raised_of_evaluateEach h, hs, Option.or_none] at hkept
  exact hkept.symm

end Setup

theorem Settings.level_of_policy {settings : Settings} {policy : Policy}
    (h : settings.policy = .ok policy) : policy.level.val = settings.level.toNat := by
  unfold Settings.policy Policy.ofLevel at h
  split at h
  · cases h
    rfl
  · cases h

namespace Engine

/-- A new engine under the default settings. -/
def ordinary (document : Document) (registry : Registry) : Engine where
  document := document
  registry := registry
  settings := {}
  policy := {}
  policy_eq := rfl

/-- A new engine of the least strictness, which raises only what no strictness passes over. -/
def lenient (document : Document) (registry : Registry) : Engine where
  document := document
  registry := registry
  settings := { level := 0 }
  policy := { level := 0 }
  policy_eq := rfl

variable {engine : Engine}

theorem evaluate_of_cached {name : String} {state : SectionState}
    (h : engine.cache.get? name = some state) :
    evaluate name engine = ⟨.ok state, engine, []⟩ := by
  simp only [evaluate, bind_apply, get_apply, h, Outcome.after_nil, pure_apply]

theorem evaluate_of_uncached {name : String} (h : engine.cache.get? name = none) :
    evaluate name engine = inSession (·.evaluate name) engine := by
  simp only [evaluate, bind_apply, get_apply, h, Outcome.after_nil]

/-- A section gives what it gives in a session over the kept results. -/
theorem result_evaluate (name : String) (engine : Engine) :
    (evaluate name engine).result =
      (engine.toSetup.evaluate name { cache := engine.cache }).result := by
  cases hcache : engine.cache.get? name with
  | some state =>
    rw [evaluate_of_cached hcache, Setup.evaluate, Setup.evaluateWithin,
      Setup.visit_of_cached engine.toSetup hcache]
  | none =>
    rw [evaluate_of_uncached hcache]
    rfl

@[simp] theorem toSetup_evaluate (name : String) (engine : Engine) :
    (evaluate name engine).state.toSetup = engine.toSetup := by
  cases hcache : engine.cache.get? name with
  | some state => rw [evaluate_of_cached hcache]
  | none =>
    rw [evaluate_of_uncached hcache]
    rfl

/-- A run of the engine over some sections, and the engine after it: over a section that is not
kept, or over every one. -/
inductive RunsTo (engine : Engine) : List String → Engine → Prop
  | evaluate {name} : engine.cache.get? name = none →
    RunsTo engine [name] (evaluate name engine).state
  | evaluateAll : RunsTo engine engine.document.names (evaluateAll engine).state

/-- A run is a session of its own, whose cache and trace the engine keeps. -/
theorem RunsTo.state_eq {names : List String} {after : Engine} (h : engine.RunsTo names after) :
    after.toSetup = engine.toSetup ∧
      after.cache =
        (engine.toSetup.evaluateEach names { cache := engine.cache }).state.cache ∧
      after.trace =
        (engine.toSetup.evaluateEach names { cache := engine.cache }).journal.trace := by
  cases h with
  | @evaluate name hcache =>
    rw [evaluate_of_uncached hcache, Setup.evaluateEach_cons]
    dsimp only [inSession]
    cases (engine.toSetup.evaluate name { cache := engine.cache }).result with
    | ok state => exact ⟨rfl, rfl, by simp [Setup.evaluateEach, Journaled.pure_apply]⟩
    | error fault => exact ⟨rfl, rfl, rfl⟩
  | evaluateAll => exact ⟨rfl, rfl, rfl⟩

theorem ofDocument_eq_ok {document : Document} {registry : Registry} {settings : Settings}
    (h : ofDocument document registry settings = .ok engine) :
    engine.document = document ∧ engine.registry = registry ∧ engine.settings = settings ∧
      engine.cache = ∅ := by
  unfold ofDocument at h
  split at h
  · cases h
    exact ⟨rfl, rfl, rfl, rfl⟩
  · cases h

theorem setSettings_eq_ok {settings : Settings} {changed : Engine}
    (h : engine.setSettings settings = .ok changed) :
    changed.document = engine.document ∧ changed.registry = engine.registry ∧
      changed.settings = settings ∧ changed.cache = ∅ := by
  unfold setSettings at h
  split at h
  · cases h
    exact ⟨rfl, rfl, rfl, rfl⟩
  · cases h

theorem loadPaths_apply (files : Files) (paths : List String) :
    loadPaths files paths engine =
      let loaded := Document.loadAll files paths engine
      match loaded.result with
      | .ok document => ⟨.ok (), engine.setDocument document, loaded.journal⟩
      | .error fault => ⟨.error fault, engine, loaded.journal⟩ := by
  have hstate := Document.state_loadInto files ∅ paths engine
  simp only [loadPaths, bind_apply, modify_apply, Document.loadAll]
  cases (Document.loadInto files ∅ paths engine).result with
  | error fault => simp only [hstate]
  | ok document => simp [hstate, Outcome.after]

section

variable {σ : Type} (destination : Destination σ) (separator : String) (written : σ)

theorem writeSections_cons (name : String) (rest : List String) :
    writeSections destination separator (name :: rest) (engine, written) =
      let evaluated := evaluate name engine
      match evaluated.result with
      | .error fault => ⟨.error fault, (evaluated.state, written), evaluated.journal⟩
      | .ok state =>
        let taken := destination.put (separator ++ Document.sectionText name state.options) written
        match taken.1 with
        | .error error =>
          ⟨.error (.unwritable error), (evaluated.state, taken.2), evaluated.journal⟩
        | .ok _ =>
          (writeSections destination "\n" rest (evaluated.state, taken.2)).after
            evaluated.journal := by
  simp only [writeSections, bind_apply, onFirst, put]
  cases (evaluate name engine).result with
  | error fault => rfl
  | ok state =>
    dsimp only
    cases (destination.put _ _).1 with
    | error error => simp [Outcome.after]
    | ok _ => simp [Outcome.after]

theorem write_apply :
    write destination (engine, written) =
      let sections := writeSections destination "" engine.document.names (engine, written)
      ⟨sections.result.bind fun _ => (destination.flush sections.state.2).mapError .unwritable,
        sections.state, sections.journal⟩ := by
  simp only [write, bind_apply, get_apply, Outcome.after_nil, ofExcept_apply]
  cases (writeSections destination "" engine.document.names (engine, written)).result with
  | error fault => rfl
  | ok _ => simp [Outcome.after, Except.bind]

end

end Engine

end IniCompose
