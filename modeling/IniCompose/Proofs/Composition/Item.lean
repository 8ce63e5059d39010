import IniCompose.Evaluation
import IniCompose.Proofs.Registry.Resolution
import Mathlib.Data.List.Forall2

/-!
# What options mean under a composing registry

A registry composes if every handler in it imports a section or appends the option to the actions.
Under such a registry an option is data: it assigns, acts, imports a section, or is malformed.
-/
namespace IniCompose

/-- Every handler imports a section or appends the option to the actions, and options without
operation are assigned. -/
structure Registry.Composes (registry : Registry) : Prop where
  generic : registry.generic = none
  handlers : ∀ entry ∈ registry.handlers.entries, ∀ handler ∈ entry.2,
    handler = importSection ∨ handler = Program.addAction

theorem Registry.composes_standard : Registry.standard.Composes := by
  refine ⟨rfl, fun entry hentry handler hhandler => ?_⟩
  rw [entries_standard, List.mem_singleton] at hentry
  subst hentry
  exact .inl (List.mem_singleton.1 hhandler)

theorem importSection_ne_addAction : importSection ≠ Program.addAction := by
  intro h
  have := congrFun h ⟨"", "", "", ⟨none, "", none⟩⟩
  cases this

/-- What an option asks for. -/
inductive Item
  | assign (key value : String)
  | act (action : Action)
  | imports (name : String)
  | malformed (fault : Fault)

namespace Registry

/-- The option of a section, given as stored key and value, asks for an item. -/
inductive Reads (registry : Registry) (sectionName : String) : String × String → Item → Prop
  | unresolved {stored value fault} :
    registry.resolveKey sectionName stored = .error fault →
    Reads registry sectionName (stored, value) (.malformed fault)
  | assign {stored value key} :
    registry.resolveKey sectionName stored = .ok ⟨key, none⟩ →
    Reads registry sectionName (stored, value) (.assign key.parameter value)
  | act {stored value key} :
    registry.resolveKey sectionName stored = .ok ⟨key, some Program.addAction⟩ →
    Reads registry sectionName (stored, value)
      (.act ⟨key.operation.getD "", key.parameter, value, sectionName⟩)
  | imports {stored value key} :
    registry.resolveKey sectionName stored = .ok ⟨key, some importSection⟩ →
    key.parameter ≠ "" →
    Reads registry sectionName (stored, value) (.imports key.parameter)
  | importsNothing {stored value key} :
    registry.resolveKey sectionName stored = .ok ⟨key, some importSection⟩ →
    key.parameter = "" →
    Reads registry sectionName (stored, value) (.malformed
      (.optionFormat sectionName (StoredKey.split stored).1 "'use' requires a section name"))

/-- The options of a section ask for items, in file order. -/
abbrev ReadsAll (registry : Registry) (sectionName : String) :
    List (String × String) → List Item → Prop :=
  List.Forall₂ (registry.Reads sectionName)

variable {registry : Registry} {sectionName : String}

theorem Composes.handler_of_resolveKey (h : registry.Composes) {stored : String}
    {key : OptionKey} {handler : Handler}
    (hresolve : registry.resolveKey sectionName stored = .ok ⟨key, some handler⟩) :
    handler = importSection ∨ handler = Program.addAction := by
  rcases resolveKey_eq_ok hresolve with ⟨-, hnone, -⟩ | ⟨found, hone, hsome, -⟩
  · cases hnone
  · cases hsome
    exact h.handlers _ (mem_entries_of_candidates hone) handler (by simp)

/-- Under a composing registry every option asks for something. -/
theorem Composes.exists_reads (h : registry.Composes) (sectionName : String)
    (option : String × String) : ∃ item, registry.Reads sectionName option item := by
  obtain ⟨stored, value⟩ := option
  match hresolve : registry.resolveKey sectionName stored with
  | .error fault => exact ⟨_, .unresolved hresolve⟩
  | .ok ⟨key, none⟩ => exact ⟨_, .assign hresolve⟩
  | .ok ⟨key, some handler⟩ =>
    rcases h.handler_of_resolveKey hresolve with rfl | rfl
    · by_cases hparameter : key.parameter = ""
      · exact ⟨_, .importsNothing hresolve hparameter⟩
      · exact ⟨_, .imports hresolve hparameter⟩
    · exact ⟨_, .act hresolve⟩

theorem Composes.exists_readsAll (h : registry.Composes) (sectionName : String)
    (entries : List (String × String)) : ∃ items, registry.ReadsAll sectionName entries items := by
  induction entries with
  | nil => exact ⟨[], .nil⟩
  | cons option rest ih =>
    obtain ⟨item, hitem⟩ := h.exists_reads sectionName option
    obtain ⟨items, hitems⟩ := ih
    exact ⟨item :: items, .cons hitem hitems⟩

/-- No option asks for two things. -/
theorem Reads.unique {option : String × String} {first second : Item}
    (h : registry.Reads sectionName option first) (h' : registry.Reads sectionName option second) :
    first = second := by
  have hne := importSection_ne_addAction
  have hne' := hne.symm
  cases h <;> cases h' <;> simp_all

variable {entries : List (String × String)}

theorem ReadsAll.unique {first second : List Item}
    (h : registry.ReadsAll sectionName entries first)
    (h' : registry.ReadsAll sectionName entries second) : first = second :=
  List.right_unique_forall₂' (fun _ _ _ h h' => h.unique h') h h'

theorem ReadsAll.mem_iff {items : List Item} {item : Item}
    (h : registry.ReadsAll sectionName entries items) :
    item ∈ items ↔ ∃ option ∈ entries, registry.Reads sectionName option item := by
  induction h with
  | nil => simp
  | @cons option first entries rest hfirst _ ih =>
    have hhead : item = first ↔ registry.Reads sectionName option item :=
      ⟨fun h => h ▸ hfirst, fun h => h.unique hfirst⟩
    simp only [List.mem_cons, exists_eq_or_imp, ih, hhead]

end Registry

end IniCompose
