import IniCompose.Proofs.Composition.Expansion
import Mathlib.Logic.Relation

/-!
# Evaluation without a cache

What becomes of items when every import evaluates its section anew. Items pass and have effects, or
one of them fails with a fault. Which of the two happens, and with what, depends on the items, on
the sections that are active and on the setup alone. Passing hardly depends on the active sections:
all that counts is that none of them is imported again.
-/
namespace IniCompose

/-- An option of an existing section asks for the import of `target`. -/
def Document.Imports (document : Document) (registry : Registry) (name target : String) : Prop :=
  ∃ options, document.options? name = some options ∧
    ∃ option ∈ options.entries, registry.Reads name option (.imports target)

namespace Setup

/-- The items pass when the sections of a list are active, innermost first, and have effects. -/
inductive Passes (setup : Setup) : List String → List Item → List Effect → Prop
  | nil {active} : Passes setup active [] []
  | assign {active key value rest effects} :
    Passes setup active rest effects →
    Passes setup active (.assign key value :: rest) (.assign key value :: effects)
  | act {active action rest effects} :
    Passes setup active rest effects →
    Passes setup active (.act action :: rest) (.act action :: effects)
  | malformed {active fault rest effects} :
    setup.policy.decision fault.severity ≠ .raise →
    Passes setup active rest effects →
    Passes setup active (.malformed fault :: rest) effects
  | absent {active name rest effects} :
    setup.document.options? name = none → setup.policy.decision .serious ≠ .raise →
    Passes setup active rest effects →
    Passes setup active (.imports name :: rest) effects
  | inlined {active name options items inner rest effects} :
    name ∉ active → setup.document.options? name = some options →
    setup.registry.ReadsAll name options.entries items →
    Passes setup (name :: active) items inner →
    Passes setup active rest effects →
    Passes setup active (.imports name :: rest) (inner ++ effects)

/-- One of the items fails with a fault, and those before it pass. -/
inductive Fails (setup : Setup) : List String → List Item → Fault → Prop
  | malformed {active fault rest} :
    setup.policy.decision fault.severity = .raise →
    Fails setup active (.malformed fault :: rest) fault
  | absent {active name rest} :
    setup.document.options? name = none → setup.policy.decision .serious = .raise →
    Fails setup active (.imports name :: rest) (.sectionNotFound name)
  | cycle {active name options rest} :
    name ∈ active → setup.document.options? name = some options →
    Fails setup active (.imports name :: rest)
      (.circularReference name (active.reverse ++ [name]))
  | inside {active name options items rest fault} :
    name ∉ active → setup.document.options? name = some options →
    setup.registry.ReadsAll name options.entries items →
    Fails setup (name :: active) items fault →
    Fails setup active (.imports name :: rest) fault
  | later {active item effects rest fault} :
    Passes setup active [item] effects → Fails setup active rest fault →
    Fails setup active (item :: rest) fault

variable {setup : Setup} {active : List String} {items : List Item} {effects : List Effect}

/-! ## Passing -/

theorem Passes.expands (h : setup.Passes active items effects) :
    setup.document.Expands setup.registry items effects := by
  induction h with
  | nil => exact .nil
  | assign _ ih => exact .assign ih
  | act _ ih => exact .act ih
  | malformed _ _ ih => exact .malformed ih
  | absent hnone _ _ ih => exact .absent hnone ih
  | inlined _ hsome hreads _ _ ihinner ihrest => exact .inlined hsome hreads ihinner ihrest

theorem Passes.unique {active' : List String} {effects' : List Effect}
    (h : setup.Passes active items effects) (h' : setup.Passes active' items effects') :
    effects = effects' :=
  h.expands.unique h'.expands

theorem Passes.cons {item : Item} {inner : List Effect} (hitem : setup.Passes active [item] inner)
    (h : setup.Passes active items effects) :
    setup.Passes active (item :: items) (inner ++ effects) := by
  cases hitem with
  | assign hnil => cases hnil; exact .assign h
  | act hnil => cases hnil; exact .act h
  | malformed hpassed hnil => cases hnil; exact .malformed hpassed h
  | absent hnone hpassed hnil => cases hnil; exact .absent hnone hpassed h
  | inlined hfree hsome hreads hinner hnil =>
    cases hnil
    rw [List.append_nil]
    exact .inlined hfree hsome hreads hinner h

theorem Passes.of_cons {item : Item} (h : setup.Passes active (item :: items) effects) :
    ∃ later, setup.Passes active items later := by
  cases h with
  | assign hrest | act hrest | malformed _ hrest | absent _ _ hrest | inlined _ _ _ _ hrest =>
    exact ⟨_, hrest⟩

/-- A section imports what one of its items asks to import. -/
theorem imports_iff {name target : String} {options : Options}
    (hsome : setup.document.options? name = some options)
    (hreads : setup.registry.ReadsAll name options.entries items) :
    setup.document.Imports setup.registry name target ↔ .imports target ∈ items := by
  rw [hreads.mem_iff]
  constructor
  · rintro ⟨options', hsome', hoption⟩
    cases hsome.symm.trans hsome'
    exact hoption
  · intro hoption
    exact ⟨options, hsome, hoption⟩

theorem not_imports_of_none {name : String} (hnone : setup.document.options? name = none)
    (target : String) : ¬ setup.document.Imports setup.registry name target := by
  rintro ⟨options, hsome, -⟩
  cases hnone.symm.trans hsome

/-- What passes when some sections are active passes when others are, if none of these is imported
directly or indirectly. The predicate `P` holds of everything that is imported. -/
theorem Passes.transfer (h : setup.Passes active items effects) {active' : List String}
    {P : String → Prop} (himported : ∀ name, .imports name ∈ items → P name)
    (hclosed : ∀ name target, P name → setup.document.Imports setup.registry name target → P target)
    (hactive : ∀ name, P name → name ∈ active' → name ∈ active) :
    setup.Passes active' items effects := by
  induction h generalizing active' with
  | nil => exact .nil
  | assign _ ih => exact .assign (ih (fun name h => himported name (by simp [h])) hactive)
  | act _ ih => exact .act (ih (fun name h => himported name (by simp [h])) hactive)
  | malformed hpassed _ ih =>
    exact .malformed hpassed (ih (fun name h => himported name (by simp [h])) hactive)
  | absent hnone hpassed _ ih =>
    exact .absent hnone hpassed (ih (fun name h => himported name (by simp [h])) hactive)
  | @inlined active name _ items _ _ _ hfree hsome hreads _ _ ihinner ihrest =>
    have hname : P name := himported name (by simp)
    have hinner : setup.Passes (name :: active') items _ := ihinner
      (fun target htarget => hclosed name target hname ((imports_iff hsome hreads).2 htarget))
      (by
        intro other hother hmem
        rcases List.mem_cons.1 hmem with rfl | hmem
        · exact List.mem_cons_self
        · exact List.mem_cons_of_mem _ (hactive other hother hmem))
    have hrest := ihrest (fun other h => himported other (by simp [h])) hactive
    exact .inlined (fun hmem => hfree (hactive name hname hmem)) hsome hreads hinner hrest

/-- What passes when some sections are active passes when none is. -/
theorem Passes.inactive (h : setup.Passes active items effects) : setup.Passes [] items effects :=
  h.transfer (P := fun _ => True) (by simp) (by simp) (by simp)

/-- From a section that passes no endless chain of imports starts. -/
theorem Passes.acc (h : setup.Passes active items effects) {name : String}
    (hname : .imports name ∈ items) :
    Acc (fun target name => setup.document.Imports setup.registry name target) name := by
  induction h generalizing name with
  | nil => simp at hname
  | assign _ ih | act _ ih | malformed _ _ ih => exact ih (by simpa using hname)
  | @absent _ absentName _ _ hnone _ _ ih =>
    rcases List.mem_cons.1 hname with heq | hname
    · cases heq
      exact ⟨_, fun target himports => absurd himports (not_imports_of_none hnone target)⟩
    · exact ih hname
  | inlined _ hsome hreads _ _ ihinner ihrest =>
    rcases List.mem_cons.1 hname with heq | hname
    · cases heq
      exact ⟨_, fun target himports => ihinner ((imports_iff hsome hreads).1 himports)⟩
    · exact ihrest hname

/-! ## Failing -/

theorem Fails.cons {item : Item} {fault : Fault} (h : setup.Fails active [item] fault)
    (rest : List Item) : setup.Fails active (item :: rest) fault := by
  cases h with
  | malformed hraised => exact .malformed hraised
  | absent hnone hraised => exact .absent hnone hraised
  | cycle hmem hsome => exact .cycle hmem hsome
  | inside hfree hsome hreads hinner => exact .inside hfree hsome hreads hinner
  | later _ hnil => cases hnil

/-- What passes does not fail. -/
theorem Passes.not_fails (h : setup.Passes active items effects) {fault : Fault} :
    ¬ setup.Fails active items fault := by
  intro hfails
  induction hfails generalizing effects with
  | malformed hraised =>
    cases h with
    | malformed hpassed _ => exact hpassed hraised
  | absent hnone hraised =>
    cases h with
    | absent _ hpassed _ => exact hpassed hraised
    | inlined _ hsome _ _ _ => cases hnone.symm.trans hsome
  | cycle hmem hsome =>
    cases h with
    | absent hnone _ _ => cases hnone.symm.trans hsome
    | inlined hfree _ _ _ _ => exact hfree hmem
  | inside _ hsome hreads _ ih =>
    cases h with
    | absent hnone _ _ => cases hnone.symm.trans hsome
    | inlined _ hsome' hreads' hinner _ =>
      cases hsome.symm.trans hsome'
      cases hreads.unique hreads'
      exact ih hinner
  | later _ _ ih =>
    obtain ⟨_, hrest⟩ := h.of_cons
    exact ih hrest

theorem Fails.unique {first second : Fault} (h : setup.Fails active items first)
    (h' : setup.Fails active items second) : first = second := by
  induction h generalizing second with
  | malformed hraised =>
    cases h' with
    | malformed _ => rfl
    | later hpasses _ => exact absurd (.malformed hraised) hpasses.not_fails
  | absent hnone hraised =>
    cases h' with
    | absent _ _ => rfl
    | cycle _ hsome | inside _ hsome _ _ => cases hnone.symm.trans hsome
    | later hpasses _ => exact absurd (.absent hnone hraised) hpasses.not_fails
  | cycle hmem hsome =>
    cases h' with
    | absent hnone _ => cases hnone.symm.trans hsome
    | cycle _ _ => rfl
    | inside hfree _ _ _ => exact absurd hmem hfree
    | later hpasses _ => exact absurd (.cycle hmem hsome) hpasses.not_fails
  | inside hfree hsome hreads hinner ih =>
    cases h' with
    | absent hnone _ => cases hnone.symm.trans hsome
    | cycle hmem _ => exact absurd hmem hfree
    | inside _ hsome' hreads' hinner' =>
      cases hsome.symm.trans hsome'
      cases hreads.unique hreads'
      exact ih hinner'
    | later hpasses _ => exact absurd (.inside hfree hsome hreads hinner) hpasses.not_fails
  | later hpasses _ ih =>
    cases h' with
    | malformed hraised => exact absurd (.malformed hraised) hpasses.not_fails
    | absent hnone hraised => exact absurd (.absent hnone hraised) hpasses.not_fails
    | cycle hmem hsome => exact absurd (.cycle hmem hsome) hpasses.not_fails
    | inside hfree hsome hreads hinner =>
      exact absurd (.inside hfree hsome hreads hinner) hpasses.not_fails
    | later _ hrest => exact ih hrest

end Setup

end IniCompose
