import IniCompose.Proofs.Composition.Inlining
import IniCompose.Proofs.Document.Written

/-!
# The options of evaluated sections

If a document has been read from a text, the options of its evaluated sections can be written: their
keys are free of suffixes and not empty. Without handlers such options are evaluated to themselves.
-/
namespace IniCompose

variable {registry : Registry} {document : Document}

/-! ## Options that are assigned -/

/-- The key of an assigned option is the one behind the stored key. -/
theorem Registry.Reads.normalOption {sectionName key value : String} {option : String × String}
    (h : registry.Reads sectionName option (.assign key value))
    (hkey : NormalKey (StoredKey.split option.1).1) (hvalue : NormalValue option.2) :
    NormalOption (key, value) := by
  cases h with
  | assign hresolve =>
    rcases resolveKey_eq_ok hresolve with ⟨-, -, -, hparameter, hne⟩ | ⟨handler, -, hsome, -⟩
    · rw [hkey.trimmed, String.ofList_toList] at hparameter
      exact ⟨hparameter ▸ hkey, hne, hvalue⟩
    · cases hsome

theorem Registry.ReadsAll.normalOption {sectionName : String} {entries : List (String × String)}
    {items : List Item} (h : registry.ReadsAll sectionName entries items)
    (hentries : ∀ option ∈ entries,
      NormalKey (StoredKey.split option.1).1 ∧ NormalValue option.2) :
    ∀ key value, .assign key value ∈ items → NormalOption (key, value) := by
  intro key value hmem
  obtain ⟨option, hoption, hreads⟩ := h.mem_iff.1 hmem
  exact hreads.normalOption (hentries option hoption).1 (hentries option hoption).2

/-- Induction on the expansion. -/
theorem Document.Expands.normalOption {items : List Item} {effects : List Effect}
    (h : document.Expands registry items effects) (hdocument : document.Normal)
    (hitems : ∀ key value, .assign key value ∈ items → NormalOption (key, value)) :
    ∀ key value, .assign key value ∈ effects → NormalOption (key, value) := by
  induction h with
  | nil => simp
  | assign _ ih =>
    intro key value hmem
    rcases List.mem_cons.1 hmem with heq | hmem
    · cases heq
      exact hitems _ _ List.mem_cons_self
    · exact ih (fun key value h => hitems key value (List.mem_cons_of_mem _ h)) key value hmem
  | act _ ih =>
    intro key value hmem
    refine ih (fun key value h => hitems key value (List.mem_cons_of_mem _ h)) key value ?_
    simpa using hmem
  | malformed _ ih | absent _ _ ih =>
    exact ih fun key value h => hitems key value (List.mem_cons_of_mem _ h)
  | inlined hsome hreads _ _ ihinner ihrest =>
    intro key value hmem
    rcases List.mem_append.1 hmem with hinner | hrest
    · have hoptions := (hdocument _ (OrderedMap.mem_entries_of_get? hsome)).2
      exact ihinner (hreads.normalOption hoptions) key value hinner
    · exact ihrest (fun key value h => hitems key value (List.mem_cons_of_mem _ h)) key value hrest

/-- The options of an evaluated section can be written. -/
theorem Engine.normalOption_of_evaluate {engine : Engine} (hcomposes : engine.registry.Composes)
    (hsound : engine.SoundCache engine.cache) (hdocument : engine.document.Normal) {name : String}
    {state : SectionState} (h : (evaluate name engine).result = .ok state) :
    ∀ option ∈ state.options.entries, NormalOption option := by
  intro option hoption
  rcases evaluate_cases hcomposes hsound name with ⟨effects, hpasses, hresult⟩ | ⟨fault, -, hresult⟩
  · cases hresult.symm.trans h
    rw [Effect.replay, SectionState.options_applyAll] at hoption
    rcases OrderedMap.mem_entries_insertAll hoption with hnone | hassigned
    · cases hnone
    · obtain ⟨effect, heffect, hassigns⟩ := List.mem_filterMap.1 hassigned
      cases effect with
      | assign key value =>
        cases hassigns
        exact hpasses.expands.normalOption hdocument (by simp) key value heffect
      | act action => cases hassigns
  · cases hresult.symm.trans h

/-- What is read from a text is in normal form, and evaluating keeps it so: the states that an
engine over the document returns or has in its cache have options that can be written. -/
theorem Document.normal_form_of_parse {text origin : String}
    (h : Document.parse text origin = .ok document) :
    document.Normal ∧
    ∀ engine, Engine.Reached .standard engine → engine.document = document → ∀ name state,
      engine.cache.get? name = some state ∨ (Engine.evaluate name engine).result = .ok state →
      ∀ option ∈ state.options.entries, NormalOption option := by
  have hnormal := Document.normal_of_parse h
  refine ⟨hnormal, ?_⟩
  rintro engine hreached rfl name state hstate
  obtain ⟨hregistry, hsound⟩ := hreached.soundCache Registry.composes_standard
  have hcomposes : engine.registry.Composes := hregistry ▸ Registry.composes_standard
  have hresult : (Engine.evaluate name engine).result = .ok state := by
    rcases hstate with hcached | hreturned
    · rw [Engine.evaluate_of_cached hcached]
    · exact hreturned
  exact Engine.normalOption_of_evaluate hcomposes hsound hnormal hresult

/-- A section with a value that goes on behind an empty line and with a repeated key, and one that
imports it. -/
def layered : Document :=
  ⟨.ofList [("base", .ofList [("k", "1\n\n2"), ("j", "3"), ("j:2", "4")]),
    ("site", .ofList [("use base", ""), ("l", "5")])]⟩

/-- The importing section takes over the value of several lines, and the repeated key without its
suffix. -/
theorem Document.normal_form_of_parse_layered :
    ∃ engine,
      Document.parse
          "[ base ]\nk = 1\n\n  # more\n  2\nj: 3\nj: 4\n[site]\nuse base\nl = 5" "source" =
        .ok layered ∧
      Engine.Reached .standard engine ∧ engine.document = layered ∧
      (Engine.evaluate "site" engine).result =
        .ok ⟨.ofList [("k", "1\n\n2"), ("j", "4"), ("l", "5")], []⟩ ∧
      layered.Normal ∧
      ∀ option ∈ [("k", "1\n\n2"), ("j", "4"), ("l", "5")], NormalOption option := by
  have hparse : Document.parse
      "[ base ]\nk = 1\n\n  # more\n  2\nj: 3\nj: 4\n[site]\nuse base\nl = 5" "source" =
        .ok layered := by rfl
  obtain ⟨engine, hengine, hdocument, hresult⟩ : ∃ engine,
      Engine.ofDocument layered .standard {} = .ok engine ∧ engine.document = layered ∧
      (Engine.evaluate "site" engine).result =
        .ok ⟨.ofList [("k", "1\n\n2"), ("j", "4"), ("l", "5")], []⟩ :=
    ⟨_, rfl, rfl, by rfl⟩
  have hreached : Engine.Reached .standard engine := .start hengine
  obtain ⟨hnormal, hstates⟩ := Document.normal_form_of_parse hparse
  have hoptions := hstates engine hreached hdocument "site" _ (.inr hresult)
  exact ⟨engine, hparse, hreached, hdocument, hresult, hnormal, hoptions⟩

/-! ## Evaluation without handlers -/

theorem Registry.composes_bare : Registry.bare.Composes := by
  refine ⟨rfl, fun entry hentry => ?_⟩
  cases hentry

/-- Without handlers a key that needs no suffix is kept as it is. -/
theorem Registry.resolveKey_bare {key : String} (hkey : NormalKey key) (hne : key ≠ "")
    (sectionName : String) :
    bare.resolveKey sectionName key = .ok ⟨⟨none, key, none⟩, none⟩ := by
  have hcolon : ':' ∉ key.toList := by
    intro hmem
    have := hkey.delimiter ':' hmem
    simp [Line.isDelimiter] at this
  have hchars : key.toList ≠ [] := by simpa using hne
  have htrim : Text.trim key.toList = key.toList := hkey.trimmed
  rw [resolveKey, StoredKey.split_of_notMem hcolon]
  simp only [htrim, resolveText, List.isEmpty_iff, hchars, if_false]
  simp [candidates, bare, OrderedMap.getD]

theorem Registry.readsAll_bare (sectionName : String) {entries : List (String × String)}
    (h : ∀ option ∈ entries, NormalOption option) :
    bare.ReadsAll sectionName entries (entries.map fun option => .assign option.1 option.2) := by
  induction entries with
  | nil => exact .nil
  | cons option rest ih =>
    obtain ⟨hkey, hne, -⟩ := h option (by simp)
    exact .cons (.assign (resolveKey_bare hkey hne sectionName))
      (ih fun other hother => h other (by simp [hother]))

theorem Setup.passes_assignments (setup : Setup) (active : List String)
    (entries : List (String × String)) :
    setup.Passes active (entries.map fun option => .assign option.1 option.2)
      (entries.map fun option => .assign option.1 option.2) := by
  induction entries with
  | nil => exact .nil
  | cons option rest ih => exact .assign ih

theorem Effect.replay_assignments (options : Options) :
    Effect.replay (options.entries.map fun option => .assign option.1 option.2) =
      ⟨options, []⟩ := by
  have hassigned : (options.entries.map fun option => Effect.assign option.1 option.2).filterMap
      Effect.assignment? = options.entries := by
    simp [List.filterMap_map, Function.comp_def, Effect.assignment?]
  have hacted : (options.entries.map fun option => Effect.assign option.1 option.2).filterMap
      Effect.action? = [] := by
    simp [List.filterMap_map, Function.comp_def, Effect.action?]
  change SectionState.mk (Effect.replay _).options (Effect.replay _).actions = _
  rw [Effect.replay, SectionState.options_applyAll, SectionState.actions_applyAll, hassigned,
    hacted]
  exact congrArg (SectionState.mk · []) options.ofList_entries

/-- Without handlers a section of options that can be written evaluates to these. -/
theorem Engine.evaluate_bare {engine : Engine} (hregistry : engine.registry = .bare)
    (hsound : engine.SoundCache engine.cache) {name : String} {options : Options}
    (hsome : engine.document.options? name = some options)
    (hoptions : ∀ option ∈ options.entries, NormalOption option) :
    (evaluate name engine).result = .ok ⟨options, []⟩ := by
  have hreads := Registry.readsAll_bare name hoptions
  rw [← hregistry] at hreads
  have hinner := engine.passes_assignments [name] options.entries
  have hpasses : engine.Passes [] [.imports name] (_ ++ []) :=
    .inlined (by simp) hsome hreads hinner .nil
  rcases evaluate_cases (hregistry ▸ Registry.composes_bare) hsound name with
    ⟨effects, hpasses', hresult⟩ | ⟨fault, hfails, -⟩
  · rw [hresult, hpasses'.unique hpasses, List.append_nil, Effect.replay_assignments]
  · exact absurd hfails hpasses.not_fails

end IniCompose
