import IniCompose.Proofs.Document.Additions
import IniCompose.Proofs.Registry.Quoting

/-!
# What registrations make of a registry

A registry groups the registered handlers by the normal form of the operation, so that spellings
with the same normal form are one operation. How a word is resolved depends on nothing but the
registrations for its normal form: none, the only one, or how many there are.
-/
namespace IniCompose

namespace Operation

/-- The character that stands for another one in a normal form. -/
def foldChar (c : Char) : Char := if c.isAlphanum || c = '_' then c.toLower else '_'

theorem toNat_lt_of_isAlphanum {c : Char} (h : c.isAlphanum = true) : c.toNat < 128 := by
  obtain hletter | hdigit : c.isAlpha = true ∨ c.isDigit = true := Bool.or_eq_true_iff.1 h
  · obtain hupper | hlower : c.isUpper = true ∨ c.isLower = true := Bool.or_eq_true_iff.1 hletter
    · have hlast : c.val ≤ 'Z'.val := (of_decide_eq_true hupper).2
      exact Nat.lt_of_le_of_lt hlast (by decide)
    · have hlast : c.val ≤ 'z'.val := of_decide_eq_true (Bool.and_eq_true_iff.1 hlower).2
      exact Nat.lt_of_le_of_lt hlast (by decide)
  · exact Nat.lt_of_le_of_lt (Char.isDigit_iff_toNat.1 hdigit).2 (by decide)

/-- Beyond ASCII everything is folded to the underscore, which is checked with the rest of ASCII. -/
theorem foldChar_foldChar (c : Char) : foldChar (foldChar c) = foldChar c := by
  have hascii : ∀ n : Fin 128, foldChar (foldChar (.ofNat n)) = foldChar (.ofNat n) := by
    decide +kernel
  by_cases h : c.toNat < 128
  · simpa using hascii ⟨c.toNat, h⟩
  · have hother : c.isAlphanum ≠ true := fun halphanum => h (toNat_lt_of_isAlphanum halphanum)
    have hmark : c ≠ '_' := by
      rintro rfl
      exact h (by decide)
    have hfold : foldChar c = '_' := by simp [foldChar, hother, hmark]
    rw [hfold]
    rfl

/-- A normal form is its own normal form. -/
theorem normalForm_normalForm (token : String) :
    normalForm (normalForm token) = normalForm token := by
  have hfold : foldChar ∘ foldChar = foldChar := funext foldChar_foldChar
  have hmap (text : String) : normalForm text = .ofList (text.toList.map foldChar) := rfl
  rw [hmap, hmap, String.toList_ofList, List.map_map, hfold]

end Operation

open Operation

/-- The name under which a handler is registered, as it is spelled, and the handler. -/
abbrev Registration := String × Handler

namespace Registry

/-- Registers handlers one after the other. -/
def registerAll (registry : Registry) (registrations : List Registration) : Registry :=
  registrations.foldl (fun registry registration =>
    registry.register registration.1 registration.2) registry

/-- The number of registrations for the normal form of a word. -/
def registrationCount (registrations : List Registration) (token : String) : Nat :=
  registrations.countP fun registration => normalForm registration.1 = normalForm token

variable {registry : Registry} {registrations : List Registration} {token : String}

theorem registerAll_cons (registry : Registry) (registration : Registration)
    (rest : List Registration) :
    registry.registerAll (registration :: rest) =
      (registry.register registration.1 registration.2).registerAll rest := rfl

/-! ## The table -/

/-- A registration puts its handler behind those that are registered for the same normal form. -/
theorem getD_register (registry : Registry) (operation : String) (handler : Handler)
    (name : String) :
    (registry.register operation handler).handlers.getD name [] =
      registry.handlers.getD name [] ++ if normalForm operation = name then [handler] else [] := by
  unfold register
  dsimp only
  rw [OrderedMap.getD, OrderedMap.get?_insert]
  by_cases h : normalForm operation = name
  · simp [h]
  · have hne : ¬ name = normalForm operation := fun e => h e.symm
    simp [h, hne, OrderedMap.getD]

/-- Induction on the registrations. -/
theorem getD_registerAll (registry : Registry) (registrations : List Registration)
    (name : String) :
    (registry.registerAll registrations).handlers.getD name [] =
      registry.handlers.getD name [] ++
        (registrations.filter fun registration =>
          normalForm registration.1 = name).map Prod.snd := by
  induction registrations generalizing registry with
  | nil => simp [registerAll]
  | cons registration rest ih =>
    rw [registerAll_cons, ih, getD_register, List.append_assoc, List.filter_cons]
    by_cases h : normalForm registration.1 = name <;> simp [h]

theorem operations_register (registry : Registry) (operation : String) (handler : Handler) :
    (registry.register operation handler).operations =
      (registry.operations ++ [normalForm operation]).eraseDups := by
  have hnodup : registry.operations.Nodup := registry.handlers.keys_nodup
  rw [eraseDups_concat, eraseDups_of_nodup hnodup]
  exact OrderedMap.keys_insert _ _ _

/-- Induction on the registrations. -/
theorem operations_registerAll (registry : Registry) (registrations : List Registration) :
    (registry.registerAll registrations).operations =
      (registry.operations ++
        registrations.map fun registration => normalForm registration.1).eraseDups := by
  induction registrations generalizing registry with
  | nil =>
    have hnodup : registry.operations.Nodup := registry.handlers.keys_nodup
    simp [registerAll, eraseDups_of_nodup hnodup]
  | cons registration rest ih =>
    rw [registerAll_cons, ih, operations_register, eraseDups_eraseDups_append]
    simp

/-! ## Resolution -/

theorem handlers_bare (name : String) : bare.handlers.getD name [] = [] := rfl

/-- The handlers for a word are as many as its registrations. -/
theorem length_handlers (registrations : List Registration) (token : String) :
    ((bare.registerAll registrations).handlers.getD (normalForm token) []).length =
      registrationCount registrations token := by
  rw [getD_registerAll, handlers_bare, List.nil_append, List.length_map, registrationCount,
    List.countP_eq_length_filter]

theorem candidates_of_count_eq_zero (h : registrationCount registrations token = 0) :
    (bare.registerAll registrations).candidates token = .none := by
  rw [← length_handlers, List.length_eq_zero_iff] at h
  simp only [candidates, h]

/-- The only handler for a word is that of its registration. -/
theorem candidates_of_count_eq_one (h : registrationCount registrations token = 1) :
    ∃ registration ∈ registrations, normalForm registration.1 = normalForm token ∧
      (bare.registerAll registrations).candidates token = .one registration.2 := by
  rw [← length_handlers, List.length_eq_one_iff] at h
  obtain ⟨handler, hhandlers⟩ := h
  have hfound := hhandlers
  rw [getD_registerAll, handlers_bare, List.nil_append, List.map_eq_singleton_iff] at hfound
  obtain ⟨registration, hfilter, rfl⟩ := hfound
  have hmem : registration ∈ registrations.filter fun registration =>
      normalForm registration.1 = normalForm token := hfilter ▸ List.mem_singleton_self _
  obtain ⟨hmem, hname⟩ := List.mem_filter.1 hmem
  refine ⟨registration, hmem, of_decide_eq_true hname, ?_⟩
  simp only [candidates, hhandlers]

theorem candidates_of_two_le_count (h : 2 ≤ registrationCount registrations token) :
    (bare.registerAll registrations).candidates token =
      .several (registrationCount registrations token) := by
  rw [← length_handlers] at h ⊢
  unfold candidates
  split
  · next hnil => simp [hnil] at h
  · next handler hone => simp [hone] at h
  · rfl

/-- A word has one handler if and only if there is one registration for it. -/
theorem exists_candidates_eq_one_iff :
    (∃ handler, (bare.registerAll registrations).candidates token = .one handler) ↔
      registrationCount registrations token = 1 := by
  constructor
  · rintro ⟨handler, hone⟩
    by_contra hne
    obtain hzero | htwo : registrationCount registrations token = 0 ∨
        2 ≤ registrationCount registrations token := by omega
    · cases hone.symm.trans (candidates_of_count_eq_zero hzero)
    · cases hone.symm.trans (candidates_of_two_le_count htwo)
  · intro h
    obtain ⟨registration, -, -, hone⟩ := candidates_of_count_eq_one h
    exact ⟨_, hone⟩

theorem contains_registerAll_iff :
    (bare.registerAll registrations).contains token = true ↔
      1 ≤ registrationCount registrations token := by
  have hkeys : (bare.registerAll registrations).handlers.keys =
      (registrations.map fun registration => normalForm registration.1).eraseDups :=
    operations_registerAll bare registrations
  rw [contains, OrderedMap.contains_iff_mem_keys, hkeys, List.mem_eraseDups, List.mem_map,
    registrationCount, Nat.one_le_iff_ne_zero, ← Nat.pos_iff_ne_zero, List.countP_pos_iff]
  simp

/-! ## Keys -/

theorem firstWord_ne_empty_iff {stored : String} : firstWord stored ≠ "" ↔ keyText stored ≠ [] := by
  have hword : (firstWord stored).toList = (keyText stored).takeWhile (!Text.isBlank ·) :=
    String.toList_ofList
  have hhead := (Text.bounded_trim (StoredKey.split stored).1.toList).1
  change ∀ c ∈ (keyText stored).head?, _ at hhead
  rw [← not_iff_not, not_not, not_not, ← String.toList_eq_nil_iff, hword]
  cases hkey : keyText stored with
  | nil => simp
  | cons c rest =>
    rw [hkey] at hhead
    simp [hhead c rfl]

theorem isSome_handler_resolveText_iff {key : List Char} {suffix : Option String} :
    (∃ resolved, registry.resolveText key suffix = .ok resolved ∧ resolved.handler.isSome) ↔
      key ≠ [] ∧
      (∃ handler,
        registry.candidates (.ofList (key.takeWhile (!Text.isBlank ·))) = .one handler) ∧
      unquote (Text.trim (key.dropWhile (!Text.isBlank ·))) ≠ none := by
  unfold resolveText
  by_cases hempty : key = []
  · simp [hempty]
  · rw [if_neg (by simpa using hempty)]
    cases registry.candidates (.ofList (key.takeWhile (!Text.isBlank ·))) with
    | none => simp
    | several count => simp
    | one handler =>
      cases unquote (Text.trim (key.dropWhile (!Text.isBlank ·))) <;> simp [hempty]

theorem mapError_eq_ok_iff {ε ε' α : Type} {f : ε → ε'} {x : Except ε α} {a : α} :
    x.mapError f = .ok a ↔ x = .ok a := by
  cases x <;> simp [Except.mapError]

/-- A key is given a handler if and only if it has a first word, there is one handler for that, and
what stands behind the word has no mark without partner. -/
theorem isSome_handler_resolveKey_iff {sectionName stored : String} :
    (∃ resolved, registry.resolveKey sectionName stored = .ok resolved ∧
        resolved.handler.isSome) ↔
      firstWord stored ≠ "" ∧ (∃ handler, registry.candidates (firstWord stored) = .one handler) ∧
        ∀ mark, IsMark mark → ¬ Unpartnered mark (argument stored) := by
  have hargument : (∀ mark, IsMark mark → ¬ Unpartnered mark (argument stored)) ↔
      unquote (argument stored) ≠ none := by
    rw [Ne, unquote_eq_none_iff]
    simp
  rw [firstWord_ne_empty_iff, hargument]
  unfold resolveKey
  simp only [mapError_eq_ok_iff]
  exact isSome_handler_resolveText_iff

/-! ## What is registered is what is found -/

/-- Normal forms are normal. Whatever handlers are registered, from the registry without operations
on or from the standard one, which is the same with the import registered first: the operations are
the normal forms in the order of their first registration, each once; a word is resolved to nothing,
to the handler of its only registration, or to the number of its registrations; and words with the
same normal form are not told apart. So a key is given a handler if and only if it has a first word
with one registration and no quotation mark at an end of what follows lacks its partner. -/
theorem resolution_counts_registrations :
    (∀ token, normalForm (normalForm token) = normalForm token) ∧
    (∀ registrations : List Registration, standard.registerAll registrations =
      bare.registerAll (("use", importSection) :: registrations)) ∧
    ∀ registrations : List Registration,
      let registry := bare.registerAll registrations
      registry.operations.Nodup ∧
      registry.operations =
        (registrations.map fun registration => normalForm registration.1).eraseDups ∧
      (∀ token,
        (registrationCount registrations token = 0 → registry.candidates token = .none) ∧
        (registrationCount registrations token = 1 →
          ∃ registration ∈ registrations, normalForm registration.1 = normalForm token ∧
            registry.candidates token = .one registration.2) ∧
        (2 ≤ registrationCount registrations token →
          registry.candidates token = .several (registrationCount registrations token)) ∧
        (registry.contains token = true ↔ 1 ≤ registrationCount registrations token)) ∧
      (∀ token other, normalForm token = normalForm other →
        registry.candidates token = registry.candidates other ∧
        registry.contains token = registry.contains other) ∧
      ∀ sectionName stored,
        (∃ resolved, registry.resolveKey sectionName stored = .ok resolved ∧
            resolved.handler.isSome) ↔
          firstWord stored ≠ "" ∧ registrationCount registrations (firstWord stored) = 1 ∧
            ∀ mark, IsMark mark → ¬ Unpartnered mark (argument stored) := by
  refine ⟨normalForm_normalForm, fun _ => rfl, fun registrations => ⟨?_, ?_, ?_, ?_, ?_⟩⟩
  · exact OrderedMap.keys_nodup _
  · exact operations_registerAll bare registrations
  · intro token
    exact ⟨candidates_of_count_eq_zero, candidates_of_count_eq_one, candidates_of_two_le_count,
      contains_registerAll_iff⟩
  · intro token other h
    unfold candidates contains
    rw [h]
    exact ⟨rfl, rfl⟩
  · intro sectionName stored
    rw [isSome_handler_resolveKey_iff, exists_candidates_eq_one_iff]

/-- The import registered in two spellings, and another operation. -/
def respelled : List Registration :=
  [("use", importSection), ("Module-Load", importSection), ("USE", importSection)]

/-- The import is ambiguous, the other operation is found in a third spelling, and a word that is
not registered is none. -/
theorem resolution_counts_registrations_respelled :
    registrationCount respelled "Use" = 2 ∧
    (bare.registerAll respelled).candidates "Use" = .several 2 ∧
    registrationCount respelled "MODULE.LOAD" = 1 ∧
    (∃ registration ∈ respelled, normalForm registration.1 = normalForm "MODULE.LOAD" ∧
      (bare.registerAll respelled).candidates "MODULE.LOAD" = .one registration.2) ∧
    registrationCount respelled "k" = 0 ∧
    (bare.registerAll respelled).candidates "k" = .none ∧
    normalForm "MODULE.LOAD" = normalForm "module_load" ∧
    (bare.registerAll respelled).contains "MODULE.LOAD" =
      (bare.registerAll respelled).contains "module_load" ∧
    ∃ resolved, (bare.registerAll respelled).resolveKey "site" "module_load 'gcc':2" =
      .ok resolved ∧ resolved.handler.isSome := by
  obtain ⟨-, -, hregistered⟩ := resolution_counts_registrations
  obtain ⟨-, -, hcounts, hspelling, hkeys⟩ := hregistered respelled
  have htwo : registrationCount respelled "Use" = 2 := by decide
  have hone : registrationCount respelled "MODULE.LOAD" = 1 := by decide
  have hnone : registrationCount respelled "k" = 0 := by decide
  have hsame : normalForm "MODULE.LOAD" = normalForm "module_load" := by decide
  have hseveral := (hcounts "Use").2.2.1 (Nat.le_of_eq htwo.symm)
  rw [htwo] at hseveral
  refine ⟨htwo, hseveral, hone, (hcounts _).2.1 hone, hnone, (hcounts _).1 hnone, hsame,
    (hspelling _ _ hsame).2, (hkeys "site" "module_load 'gcc':2").2 ⟨by decide, by decide, ?_⟩⟩
  rintro mark (rfl | rfl) <;> decide

end Registry

end IniCompose
