import IniCompose.Proofs.Composition.Evaluator
import IniCompose.Proofs.Engine.History

/-!
# Composition is textual inlining

Whatever has been done to an engine before, a section evaluates to the replay of its expansion, and
to what a new engine over the same document and settings makes of it. For the cache of every engine
that is reached is sound.
-/
namespace IniCompose

open Journaled

/-! ## Options and actions of a replay -/

namespace Effect

def assignment? : Effect → Option (String × String)
  | assign key value => some (key, value)
  | act _ => none

def action? : Effect → Option Action
  | assign _ _ => none
  | act action => some action

end Effect

namespace SectionState

theorem options_applyAll (state : SectionState) (effects : List Effect) :
    (state.applyAll effects).options =
      state.options.insertAll (effects.filterMap Effect.assignment?) := by
  induction effects generalizing state with
  | nil => rfl
  | cons effect rest ih =>
    rw [applyAll_cons, ih]
    cases effect <;> rfl

theorem actions_applyAll (state : SectionState) (effects : List Effect) :
    (state.applyAll effects).actions = state.actions ++ effects.filterMap Effect.action? := by
  induction effects generalizing state with
  | nil => simp
  | cons effect rest ih =>
    rw [applyAll_cons, ih]
    cases effect with
    | assign key value => rfl
    | act action => simp [apply, addAction, Effect.action?]

end SectionState

namespace Setup

variable {setup : Setup} {s : Session}

/-- A session of its own, over a sound cache, has room for every nesting of requests. -/
theorem SoundCache.ready {cache : OrderedMap SectionState} (h : setup.SoundCache cache) :
    setup.Ready (setup.document.size + 1) { cache } where
  sound := h
  uncached name hname := by cases hname
  exist name hname := by cases hname
  room := by
    change setup.document.size < 0 + (setup.document.size + 1)
    omega

theorem evaluates_evaluate (hcomposes : setup.registry.Composes) {cache : OrderedMap SectionState}
    (h : setup.SoundCache cache) (name : String) :
    setup.Evaluates [.imports name] { cache } ∅ (setup.evaluate name { cache }) :=
  (follows_evaluateWithin hcomposes _).evaluates name _ h.ready

/-- The same items evaluated where the same sections are active have the same result, whatever else
differs between the sessions. -/
theorem Evaluates.result_eq {items : List Item} {state : SectionState}
    {outcome outcome' : Outcome Session Fault SectionState}
    (h : setup.Evaluates items s state outcome) (h' : setup.Evaluates items s' state outcome')
    (hactive : s.active.stack = s'.active.stack) : outcome.result = outcome'.result := by
  obtain ⟨-, hpasses, -, hfails⟩ := h
  rw [hactive] at hpasses hfails
  cases hresult : outcome.result with
  | ok final =>
    obtain ⟨effects, hpass, rfl⟩ := hpasses hresult
    cases hresult' : outcome'.result with
    | ok final' =>
      obtain ⟨effects', hpass', rfl⟩ := h'.passes hresult'
      rw [hpass.unique hpass']
    | error fault => exact absurd (h'.fails hresult') hpass.not_fails
  | error fault =>
    cases hresult' : outcome'.result with
    | ok final =>
      obtain ⟨effects, hpass, -⟩ := h'.passes hresult'
      exact absurd (hfails hresult) hpass.not_fails
    | error fault' => rw [(hfails hresult).unique (h'.fails hresult')]

/-- A section gives what it gives in a session of its own with nothing cached. -/
theorem result_evaluate_of_ready (hcomposes : setup.registry.Composes)
    (h : setup.Ready (setup.document.size + 1) s)
    (hactive : s.active = ∅) (name : String) :
    (setup.evaluate name s).result = (setup.evaluate name {}).result := by
  have hfollows := follows_evaluateWithin hcomposes (setup.document.size + 1)
  have hsection : setup.Evaluates [.imports name] s ∅ (setup.evaluate name s) :=
    hfollows.evaluates name s h
  exact hsection.result_eq (evaluates_evaluate hcomposes soundCache_empty name) (by rw [hactive])

/-- Induction on the sections that are evaluated in one session. -/
theorem ready_evaluateEach (hcomposes : setup.registry.Composes) (names : List String)
    (h : setup.Ready (setup.document.size + 1) s) :
    setup.Ready (setup.document.size + 1) (setup.evaluateEach names s).state := by
  induction names generalizing s with
  | nil => exact h
  | cons name rest ih =>
    have hfollows := follows_evaluateWithin hcomposes (setup.document.size + 1)
    have hnext : setup.Ready _ (setup.evaluate name s).state :=
      h.of_grows (hfollows.grows name s) (hfollows.evaluates name s h).sound
    rw [evaluateEach_cons]
    dsimp only
    split
    · exact ih hnext
    · exact hnext

end Setup

namespace Engine

variable {registry : Registry} {engine : Engine}

/-- Evaluating keeps a cache sound. -/
theorem soundCache_evaluate (hcomposes : engine.registry.Composes)
    (hsound : engine.SoundCache engine.cache) (name : String) :
    (evaluate name engine).state.SoundCache (evaluate name engine).state.cache := by
  cases hcache : engine.cache.get? name with
  | some state =>
    rw [evaluate_of_cached hcache]
    exact hsound
  | none =>
    rw [evaluate_of_uncached hcache]
    exact (Setup.evaluates_evaluate hcomposes hsound name).sound

/-- The cache of every engine that is reached is sound. -/
theorem Reached.soundCache (h : Reached registry engine) (hcomposes : registry.Composes) :
    engine.registry = registry ∧ engine.SoundCache engine.cache := by
  refine Kept.reached (P := fun engine => engine.registry = registry ∧
    engine.SoundCache engine.cache) ⟨?_, ?_, ?_⟩ ?_ h
  · rintro engine name ⟨hregistry, hsound⟩
    refine ⟨?_, soundCache_evaluate (hregistry ▸ hcomposes) hsound name⟩
    rw [toSetup_evaluate]
    exact hregistry
  · rintro engine ⟨hregistry, hsound⟩
    have hready := Setup.ready_evaluateEach (hregistry ▸ hcomposes) engine.document.names
      hsound.ready
    exact ⟨hregistry, hready.sound⟩
  · rintro engine changed ⟨hregistry, -⟩ hkept hcache
    refine ⟨hkept.trans hregistry, ?_⟩
    rw [hcache]
    exact Setup.soundCache_empty
  · intro engine hregistry hcache
    refine ⟨hregistry, ?_⟩
    rw [hcache]
    exact Setup.soundCache_empty

/-- A section of an engine with a sound cache passes and evaluates to the replay of its effects, or
fails and so does its evaluation. -/
theorem evaluate_cases (hcomposes : engine.registry.Composes)
    (hsound : engine.SoundCache engine.cache) (name : String) :
    (∃ effects, engine.Passes [] [.imports name] effects ∧
      (evaluate name engine).result = .ok (Effect.replay effects)) ∨
    ∃ fault, engine.Fails [] [.imports name] fault ∧
      (evaluate name engine).result = .error fault := by
  have hevaluates := Setup.evaluates_evaluate hcomposes hsound name
  rw [result_evaluate]
  cases hresult : (engine.toSetup.evaluate name { cache := engine.cache }).result with
  | ok state =>
    obtain ⟨effects, hpasses, hstate⟩ := hevaluates.passes hresult
    exact .inl ⟨effects, hpasses, congrArg _ hstate⟩
  | error fault => exact .inr ⟨fault, hevaluates.fails hresult, rfl⟩

/-- Sound caches over one setup cannot be told apart by evaluating. -/
theorem result_evaluate_eq (other : Engine) (hsetup : other.toSetup = engine.toSetup)
    (hcomposes : engine.registry.Composes) (hsound : engine.SoundCache engine.cache)
    (hsound' : other.SoundCache other.cache) (name : String) :
    (evaluate name engine).result = (evaluate name other).result := by
  rw [hsetup] at hsound'
  have hfresh := Setup.result_evaluate_of_ready hcomposes hsound.ready rfl name
  have hfresh' := Setup.result_evaluate_of_ready hcomposes hsound'.ready rfl name
  rw [result_evaluate, result_evaluate, hsetup, hfresh, hfresh']

theorem ofDocument_self (engine : Engine) :
    ofDocument engine.document engine.registry engine.settings =
      .ok { engine with cache := ∅, trace := [] } := by
  unfold ofDocument
  split
  · next policy hpolicy =>
    have hsame : policy = engine.policy := Except.ok.inj (hpolicy.symm.trans engine.policy_eq)
    subst hsame
    rfl
  · next fault hpolicy => cases hpolicy.symm.trans engine.policy_eq

/-- Composition is textual inlining, whatever the history of the engine: evaluating a section gives
what a new engine gives, and if that is a state, the section has one expansion, and the state is
made by assigning and appending what the expansion lists, in order. -/
theorem evaluate_eq_inlining (hcomposes : registry.Composes) (hreached : Reached registry engine)
    (name : String) :
    (∃ fresh, ofDocument engine.document registry engine.settings = .ok fresh ∧
      (evaluate name engine).result = (evaluate name fresh).result) ∧
    ∀ state, (evaluate name engine).result = .ok state →
      ∃ effects, (∀ other, engine.document.Expands registry [.imports name] other ↔
          other = effects) ∧
        state.options = .ofList (effects.filterMap Effect.assignment?) ∧
        state.actions = effects.filterMap Effect.action? := by
  obtain ⟨hregistry, hsound⟩ := hreached.soundCache hcomposes
  subst hregistry
  constructor
  · refine ⟨_, ofDocument_self engine, ?_⟩
    have hsetup : ({ engine with cache := ∅, trace := [] } : Engine).toSetup = engine.toSetup := rfl
    exact result_evaluate_eq _ hsetup hcomposes hsound Setup.soundCache_empty name
  · intro state hstate
    rcases evaluate_cases hcomposes hsound name with
      ⟨effects, hpasses, hresult⟩ | ⟨fault, _, hresult⟩
    · cases hresult.symm.trans hstate
      refine ⟨effects, fun other => ⟨fun h => h.unique hpasses.expands, ?_⟩, ?_, ?_⟩
      · rintro rfl
        exact hpasses.expands
      · exact SectionState.options_applyAll ∅ effects
      · exact SectionState.actions_applyAll ∅ effects
    · cases hresult.symm.trans hstate

/-- A section that imports another one between two options of its own. -/
def layers : Document :=
  ⟨.ofList [("A", .ofList [("x", "1"), ("use B", ""), ("y", "3")]),
    ("B", .ofList [("x", "2"), ("y", "2"), ("set p", "v")])]⟩

theorem composes_standard_set :
    (Registry.standard.register "set" Program.addAction).Composes := by
  refine ⟨rfl, fun entry hentry handler hhandler => ?_⟩
  have hentries : (Registry.standard.register "set" Program.addAction).handlers.entries =
    [("use", [importSection]), ("set", [Program.addAction])] := rfl
  rw [hentries] at hentry
  rcases List.mem_pair.1 hentry with rfl | rfl
  · exact .inl (List.mem_singleton.1 hhandler)
  · exact .inr (List.mem_singleton.1 hhandler)

/-- The first section, once the second one has been evaluated. -/
theorem evaluate_eq_inlining_layers :
    ∃ engine, ofDocument layers (Registry.standard.register "set" Program.addAction) {} =
        .ok engine ∧
      Reached (Registry.standard.register "set" Program.addAction)
        (Operation.run engine (.evaluate "B")) ∧
      (Operation.run engine (.evaluate "B")).isCached "B" ∧
      (evaluate "A" (Operation.run engine (.evaluate "B"))).result =
        .ok ⟨.ofList [("x", "2"), ("y", "3")], [⟨"set", "p", "v", "B"⟩]⟩ ∧
      ∃ effects, (∀ other, (Operation.run engine (.evaluate "B")).document.Expands
          (Registry.standard.register "set" Program.addAction) [.imports "A"] other ↔
            other = effects) ∧
        OrderedMap.ofList [("x", "2"), ("y", "3")] =
          .ofList (effects.filterMap Effect.assignment?) ∧
        [⟨"set", "p", "v", "B"⟩] = effects.filterMap Effect.action? := by
  obtain ⟨engine, hengine, hcached, hresult⟩ : ∃ engine,
      ofDocument layers (Registry.standard.register "set" Program.addAction) {} = .ok engine ∧
      (Operation.run engine (.evaluate "B")).isCached "B" ∧
      (evaluate "A" (Operation.run engine (.evaluate "B"))).result =
        .ok ⟨.ofList [("x", "2"), ("y", "3")], [⟨"set", "p", "v", "B"⟩]⟩ :=
    ⟨_, rfl, by rfl, by rfl⟩
  have hreached := (Reached.start hengine).step (.evaluate "B")
  have hinlined := (evaluate_eq_inlining composes_standard_set hreached "A").2 _ hresult
  exact ⟨engine, hengine, hreached, hcached, hresult, hinlined⟩

end Engine

end IniCompose
