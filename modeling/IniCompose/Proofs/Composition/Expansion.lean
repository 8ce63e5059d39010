import IniCompose.Proofs.Composition.Item
import IniCompose.Proofs.OrderedMap.Replay

/-!
# Textual inlining

The expansion of items is the flat list of assignments and actions that results from putting the
options of a section where the section is imported. It mentions neither states nor caches. Replaying
an expansion assigns and appends one after the other; replaying one expansion on top of another is
to merge its state.
-/
namespace IniCompose

/-- What an expanded option does to a section. -/
inductive Effect
  | assign (key value : String)
  | act (action : Action)
  deriving DecidableEq

namespace SectionState

def apply (state : SectionState) : Effect → SectionState
  | .assign key value => state.set key value
  | .act action => state.addAction action

/-- Assigns and appends in order. -/
def applyAll (state : SectionState) (effects : List Effect) : SectionState :=
  effects.foldl apply state

@[simp] theorem applyAll_nil (state : SectionState) : state.applyAll [] = state := rfl

@[simp] theorem applyAll_cons (state : SectionState) (effect : Effect) (effects : List Effect) :
    state.applyAll (effect :: effects) = (state.apply effect).applyAll effects := rfl

@[simp] theorem applyAll_append (state : SectionState) (first second : List Effect) :
    state.applyAll (first ++ second) = (state.applyAll first).applyAll second :=
  List.foldl_append

theorem merge_apply (state other : SectionState) (effect : Effect) :
    state.merge (other.apply effect) = (state.merge other).apply effect := by
  cases effect with
  | assign key value =>
    simp only [merge, apply, set]
    rw [OrderedMap.insert, OrderedMap.insertAll_putEntry _ _ _ other.options.nodup_keys]
  | act action => simp [merge, apply, addAction]

/-- A collapsed state stands for the effects it was made of: merging it is to apply them. -/
theorem merge_applyAll (state other : SectionState) (effects : List Effect) :
    state.merge (other.applyAll effects) = (state.merge other).applyAll effects := by
  induction effects generalizing other with
  | nil => rfl
  | cons effect rest ih => rw [applyAll_cons, ih, merge_apply, applyAll_cons]

theorem merge_empty (state : SectionState) : state.merge ∅ = state := by
  cases state
  simp [merge, show (∅ : SectionState) = ⟨∅, []⟩ from rfl]

end SectionState

/-- The state of effects applied to nothing. -/
def Effect.replay (effects : List Effect) : SectionState := SectionState.applyAll ∅ effects

theorem SectionState.merge_replay (state : SectionState) (effects : List Effect) :
    state.merge (Effect.replay effects) = state.applyAll effects := by
  rw [Effect.replay, merge_applyAll, merge_empty]

namespace Document

/-- The expansion of items by the sections of a document. Importing an absent section and a
malformed option give nothing. -/
inductive Expands (document : Document) (registry : Registry) : List Item → List Effect → Prop
  | nil : Expands document registry [] []
  | assign {key value rest effects} :
    Expands document registry rest effects →
    Expands document registry (.assign key value :: rest) (.assign key value :: effects)
  | act {action rest effects} :
    Expands document registry rest effects →
    Expands document registry (.act action :: rest) (.act action :: effects)
  | malformed {fault rest effects} :
    Expands document registry rest effects →
    Expands document registry (.malformed fault :: rest) effects
  | absent {name rest effects} :
    document.options? name = none →
    Expands document registry rest effects →
    Expands document registry (.imports name :: rest) effects
  | inlined {name options items inner rest effects} :
    document.options? name = some options → registry.ReadsAll name options.entries items →
    Expands document registry items inner →
    Expands document registry rest effects →
    Expands document registry (.imports name :: rest) (inner ++ effects)

variable {document : Document} {registry : Registry}

theorem Expands.unique {items : List Item} {first second : List Effect}
    (h : document.Expands registry items first) (h' : document.Expands registry items second) :
    first = second := by
  induction h generalizing second with
  | nil => cases h'; rfl
  | assign _ ih =>
    cases h' with
    | assign hrest => rw [ih hrest]
  | act _ ih =>
    cases h' with
    | act hrest => rw [ih hrest]
  | malformed _ ih =>
    cases h' with
    | malformed hrest => exact ih hrest
  | absent hnone _ ih =>
    cases h' with
    | absent _ hrest => exact ih hrest
    | inlined hsome _ _ _ => cases hnone.symm.trans hsome
  | inlined hsome hreads _ _ ihinner ihrest =>
    cases h' with
    | absent hnone _ => cases hnone.symm.trans hsome
    | inlined hsome' hreads' hinner hrest =>
      cases hsome.symm.trans hsome'
      cases hreads.unique hreads'
      rw [ihinner hinner, ihrest hrest]

end Document

end IniCompose
