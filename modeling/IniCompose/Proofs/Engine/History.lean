import IniCompose.Engine.View
import IniCompose.Proofs.Engine.Steps

/-!
# Histories of an engine

An engine is reached by any number of its operations, in any order, whether they succeed or not.
Every operation comes down to evaluating sections one after the other and to starting over with an
empty cache, so that what these two keep holds of every engine that is reached.
-/
namespace IniCompose.Engine

open Journaled

/-! ## Operations -/

inductive Operation : Type 1
  | evaluate (name : String)
  | evaluateAll
  | hasOption (name key : String)
  | value? (name key : String)
  | valueD (name key default : String)
  | keys (name : String)
  | items (name : String)
  | collapse
  | write {σ : Type} (destination : Destination σ) (start : σ)
  | invalidate
  | setDocument (document : Document)
  | loadPaths (files : Files) (paths : List String)
  | setSettings (settings : Settings)

/-- The engine after an operation, whether the operation succeeds or fails. -/
def Operation.run (engine : Engine) : Operation → Engine
  | evaluate name => (Engine.evaluate name engine).state
  | evaluateAll => (Engine.evaluateAll engine).state
  | hasOption name key => (Engine.hasOption name key engine).state
  | value? name key => (Engine.value? name key engine).state
  | valueD name key default => (Engine.valueD name key default engine).state
  | keys name => (Engine.keys name engine).state
  | items name => (Engine.items name engine).state
  | collapse => (Engine.collapse engine).state
  | write destination start => (Engine.write destination (engine, start)).state.1
  | invalidate => engine.invalidate
  | setDocument document => engine.setDocument document
  | loadPaths files paths => (Engine.loadPaths files paths engine).state
  | setSettings settings =>
    match engine.setSettings settings with
    | .ok changed => changed
    | .error _ => engine

/-- The engines over a registry that some operations lead to. -/
inductive Reached (registry : Registry) : Engine → Prop
  | start {document settings engine} :
    ofDocument document registry settings = .ok engine → Reached registry engine
  | step {engine} (operation : Operation) :
    Reached registry engine → Reached registry (operation.run engine)

/-! ## What every operation keeps -/

/-- A property that evaluations keep and that starting over brings about again. -/
structure Kept (P : Engine → Prop) : Prop where
  evaluate : ∀ {engine} (name : String), P engine → P (Engine.evaluate name engine).state
  evaluateAll : ∀ {engine}, P engine → P (Engine.evaluateAll engine).state
  restart : ∀ {engine changed : Engine}, P engine → changed.registry = engine.registry →
    changed.cache = ∅ → P changed

theorem state_bind_pure {σ ε α β : Type} (x : Journaled σ ε α) (f : α → β) (s : σ) :
    ((x >>= fun a => Pure.pure (f a)) s).state = (x s).state := by
  rw [bind_apply]
  cases (x s).result <;> rfl

namespace Kept

variable {P : Engine → Prop} {engine : Engine}

theorem value? (h : Kept P) (name key : String) (hengine : P engine) :
    P (Engine.value? name key engine).state := by
  rw [Engine.value?, state_bind_pure]
  exact h.evaluate name hengine

theorem hasOption (h : Kept P) (name key : String) (hengine : P engine) :
    P (Engine.hasOption name key engine).state := by
  rw [Engine.hasOption, bind_apply, get_apply]
  dsimp only [Outcome.after]
  split
  · rw [state_bind_pure]
    exact h.evaluate name hengine
  · exact hengine

/-- Induction on the sections to be written. -/
theorem writeSections (h : Kept P) {σ : Type} (destination : Destination σ) (separator : String)
    (names : List String) (start : σ) (hengine : P engine) :
    P (Engine.writeSections destination separator names (engine, start)).state.1 := by
  induction names generalizing separator engine start with
  | nil => exact hengine
  | cons name rest ih =>
    have hevaluated := h.evaluate name hengine
    rw [writeSections_cons]
    dsimp only
    split
    · exact hevaluated
    · split
      · exact hevaluated
      · exact ih _ _ hevaluated

theorem write (h : Kept P) {σ : Type} (destination : Destination σ) (start : σ)
    (hengine : P engine) : P (Engine.write destination (engine, start)).state.1 := by
  rw [write_apply]
  exact h.writeSections destination "" engine.document.names start hengine

theorem loadPaths (h : Kept P) (files : Files) (paths : List String) (hengine : P engine) :
    P (Engine.loadPaths files paths engine).state := by
  rw [loadPaths_apply]
  dsimp only
  split
  · exact h.restart hengine rfl rfl
  · exact hengine

/-- Every operation keeps what evaluations and starting over keep. -/
theorem run (h : Kept P) (operation : Operation) (hengine : P engine) :
    P (operation.run engine) := by
  cases operation with
  | evaluate name => exact h.evaluate name hengine
  | evaluateAll => exact h.evaluateAll hengine
  | hasOption name key => exact h.hasOption name key hengine
  | value? name key => exact h.value? name key hengine
  | valueD name key default =>
    rw [Operation.run, Engine.valueD, state_bind_pure]
    exact h.value? name key hengine
  | keys name =>
    rw [Operation.run, Engine.keys, state_bind_pure]
    exact h.evaluate name hengine
  | items name =>
    rw [Operation.run, Engine.items, state_bind_pure]
    exact h.evaluate name hengine
  | collapse => exact h.write Destination.text "" hengine
  | write destination start => exact h.write destination start hengine
  | invalidate => exact h.restart hengine rfl rfl
  | setDocument document => exact h.restart hengine rfl rfl
  | loadPaths files paths => exact h.loadPaths files paths hengine
  | setSettings settings =>
    rw [Operation.run]
    split
    · next changed hchanged =>
      obtain ⟨-, hregistry, -, hcache⟩ := setSettings_eq_ok hchanged
      exact h.restart hengine hregistry hcache
    · exact hengine

/-- Every engine that is reached has what every engine starts with and operations keep. -/
theorem reached (h : Kept P) {registry : Registry}
    (hstart : ∀ engine : Engine, engine.registry = registry → engine.cache = ∅ → P engine)
    (hreached : Reached registry engine) : P engine := by
  induction hreached with
  | start hengine =>
    obtain ⟨-, hregistry, -, hcache⟩ := ofDocument_eq_ok hengine
    exact hstart _ hregistry hcache
  | step operation _ ih => exact h.run operation ih

end Kept

end IniCompose.Engine
