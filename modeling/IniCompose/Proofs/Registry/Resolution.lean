import IniCompose.Registry

/-!
# What a resolved key tells about the registry

A key is given a handler only if the handler is the one registered for the key's first word. The
standard registry knows a single operation, so its keys are never ambiguous.
-/
namespace IniCompose.Registry

variable {registry : Registry} {sectionName stored : String}

theorem mem_entries_of_candidates {token : String} {handler : Handler}
    (h : registry.candidates token = .one handler) :
    (Operation.normalForm token, [handler]) ∈ registry.handlers.entries := by
  unfold candidates at h
  split at h <;> try cases h
  next hregistered =>
  have hlookup : registry.handlers.get? (Operation.normalForm token) = some [handler] := by
    unfold OrderedMap.getD at hregistered
    cases hget : registry.handlers.get? (Operation.normalForm token) with
    | none => simp [hget] at hregistered
    | some handlers => simpa [hget] using hregistered
  obtain ⟨before, later, hentries, -⟩ := List.lookup_eq_some_iff.1 hlookup
  simp [hentries]

/-- The first word of a stored key. -/
def firstWord (stored : String) : String :=
  .ofList ((Text.trim (StoredKey.split stored).1.toList).takeWhile (!Text.isBlank ·))

/-- A key either names no operation and is kept whole, or names the one handler of its first word.
-/
theorem resolveKey_eq_ok {resolved : ResolvedKey}
    (h : registry.resolveKey sectionName stored = .ok resolved) :
    (registry.candidates (firstWord stored) = .none ∧ resolved.handler = none ∧
      resolved.key.operation = none ∧
      resolved.key.parameter = .ofList (Text.trim (StoredKey.split stored).1.toList) ∧
      resolved.key.parameter ≠ "") ∨
    ∃ handler, registry.candidates (firstWord stored) = .one handler ∧
      resolved.handler = some handler ∧
      resolved.key.operation = some (Operation.normalForm (firstWord stored)) := by
  unfold resolveKey at h
  dsimp only at h
  generalize htext : registry.resolveText _ _ = text at h
  cases text with
  | error error => cases h
  | ok text =>
    cases h
    unfold resolveText at htext
    split at htext
    · cases htext
    · next hempty =>
      dsimp only at htext
      split at htext
      · next hnone =>
        cases htext
        refine .inl ⟨hnone, rfl, rfl, rfl, fun h => hempty ?_⟩
        simpa using h
      · cases htext
      · next handler hone =>
        split at htext <;> cases htext
        exact .inr ⟨handler, hone, rfl, rfl⟩

/-- A key that cannot be resolved is malformed, unless its first word is ambiguous. -/
theorem resolveKey_eq_error {fault : Fault}
    (h : registry.resolveKey sectionName stored = .error fault) :
    (∃ key detail, fault = .optionFormat sectionName key detail) ∨
      ∃ count, registry.candidates (firstWord stored) = .several count := by
  unfold resolveKey at h
  dsimp only at h
  generalize htext : registry.resolveText _ _ = text at h
  cases text with
  | ok text => cases h
  | error error =>
    cases h
    cases error with
    | empty => exact .inl ⟨_, _, rfl⟩
    | unbalancedQuote => exact .inl ⟨_, _, rfl⟩
    | ambiguous operation count =>
      unfold resolveText at htext
      split at htext
      · cases htext
      · dsimp only at htext
        split at htext
        · cases htext
        · next several hseveral => exact .inr ⟨_, hseveral⟩
        · split at htext <;> cases htext

/-- The fault of a key that cannot be resolved. -/
theorem fault_of_resolveKey {fault : Fault}
    (h : registry.resolveKey sectionName stored = .error fault) :
    (∃ key detail, fault = .optionFormat sectionName key detail) ∨
      ∃ key operation count, fault = .ambiguousHandler sectionName key operation count := by
  unfold resolveKey at h
  dsimp only at h
  generalize registry.resolveText _ _ = text at h
  cases text with
  | ok resolved => cases h
  | error error =>
    cases h
    cases error with
    | empty | unbalancedQuote => exact .inl ⟨_, _, rfl⟩
    | ambiguous operation count => exact .inr ⟨_, operation, count, rfl⟩

/-! ## The standard registry -/

theorem entries_standard : standard.handlers.entries = [("use", [importSection])] := by
  rfl

theorem candidates_standard (token : String) :
    standard.candidates token =
      if Operation.normalForm token = "use" then .one importSection else .none := by
  have hget : standard.handlers.get? (Operation.normalForm token) =
      if Operation.normalForm token = "use" then some [importSection] else none := by
    unfold OrderedMap.get?
    rw [entries_standard]
    by_cases h : Operation.normalForm token = "use"
    · simp [h]
    · have hb : (Operation.normalForm token == "use") = false := by simpa using h
      simp [List.lookup_cons, hb, h]
  unfold candidates OrderedMap.getD
  rw [hget]
  by_cases h : Operation.normalForm token = "use" <;> simp [h]

/-- Under the standard registry the keys with operation `use` are those with a handler, and the
handler imports. -/
theorem handler_standard {key : OptionKey} {handler : Option Handler}
    (h : standard.resolveKey sectionName stored = .ok ⟨key, handler⟩) :
    (key.operation = none ∧ handler = none ∧ key.parameter ≠ "") ∨
      (key.operation = some "use" ∧ handler = some importSection) := by
  rcases resolveKey_eq_ok h with
    ⟨-, hhandler, hoperation, -, hparameter⟩ | ⟨found, hfound, hhandler, hoperation⟩
  · exact .inl ⟨hoperation, hhandler, hparameter⟩
  · rw [candidates_standard] at hfound
    split at hfound
    · next huse =>
      cases hfound
      exact .inr ⟨hoperation.trans (congrArg some huse), hhandler⟩
    · cases hfound

theorem resolveKey_standard_eq_error {fault : Fault}
    (h : standard.resolveKey sectionName stored = .error fault) :
    ∃ key detail, fault = .optionFormat sectionName key detail := by
  rcases resolveKey_eq_error h with hformat | ⟨count, hcount⟩
  · exact hformat
  · rw [candidates_standard] at hcount
    split at hcount <;> cases hcount

end IniCompose.Registry
