import IniCompose.Proofs.Registry.Resolution

/-!
# What holds of every handler of a registry

Two conditions on what a program asks for and on what it does with the answers. They are about the
program alone: they hold whatever the answers turn out to be.
-/
namespace IniCompose

namespace Program

variable {α : Type}

/-- Every request that the program may make is allowed. -/
def Only (allowed : Request → Prop) : Program α → Prop
  | done _ => True
  | fail _ => True
  | ask request next => allowed request ∧ ∀ answer, (next answer).Only allowed

/-- The program fails with the fault, perhaps in some contexts. -/
def FailsWith (fault : Fault) : Program α → Prop
  | done _ => False
  | fail error => error.fault? = some fault
  | ask _ next => ∀ answer, (next answer).FailsWith fault

/-- The program fails with every fault that it is answered. -/
def PassesOn : Program α → Prop
  | done _ => True
  | fail _ => True
  | ask (.evaluate _) next =>
    (∀ fault, (next (.error fault)).FailsWith fault) ∧ ∀ answer, (next answer).PassesOn
  | ask (.report _ _) next =>
    (∀ fault, (next (.error fault)).FailsWith fault) ∧ ∀ answer, (next answer).PassesOn
  | ask _ next => ∀ answer, (next answer).PassesOn

theorem only_true (program : Program α) : program.Only fun _ => True := by
  induction program with
  | done | fail => trivial
  | ask request next ih => exact ⟨trivial, ih⟩

theorem Only.mono {allowed allowed' : Request → Prop} {program : Program α}
    (h : program.Only allowed) (himp : ∀ request, allowed request → allowed' request) :
    program.Only allowed' := by
  induction program with
  | done | fail => trivial
  | ask request next ih => exact ⟨himp request h.1, fun answer => ih answer (h.2 answer)⟩

theorem PassesOn.next {request : Request} {next : request.Answer → Program α}
    (h : (ask request next).PassesOn) (answer : request.Answer) : (next answer).PassesOn := by
  cases request with
  | evaluate name => exact h.2 answer
  | report severity fault => exact h.2 answer
  | _ => exact h answer

end Program

namespace Registry

/-- A handler for an operation, or the one for options without operation. -/
def Holds (registry : Registry) (handler : Handler) : Prop :=
  registry.generic = some handler ∨ ∃ entry ∈ registry.handlers.entries, handler ∈ entry.2

/-- Every request that a handler may make is allowed. -/
def Only (registry : Registry) (allowed : Request → Prop) : Prop :=
  ∀ handler, registry.Holds handler → ∀ site, (handler site).Only allowed

/-- Every handler fails with every fault that it is answered. -/
def PassesOn (registry : Registry) : Prop :=
  ∀ handler, registry.Holds handler → ∀ site, (handler site).PassesOn

theorem only_true (registry : Registry) : registry.Only fun _ => True :=
  fun handler _ site => Program.only_true (handler site)

variable {registry : Registry}

theorem Only.mono {allowed allowed' : Request → Prop} (h : registry.Only allowed)
    (himp : ∀ request, allowed request → allowed' request) : registry.Only allowed' :=
  fun handler hheld site => (h handler hheld site).mono himp

theorem holds_of_resolveKey {sectionName stored : String} {resolved : ResolvedKey}
    {handler : Handler} (h : registry.resolveKey sectionName stored = .ok resolved)
    (hhandler : (resolved.handler <|> registry.generic) = some handler) :
    registry.Holds handler := by
  rcases resolveKey_eq_ok h with ⟨-, hnone, -⟩ | ⟨found, hone, hsome, -⟩
  · exact .inl (by simpa [hnone] using hhandler)
  · obtain rfl : found = handler := by simpa [hsome] using hhandler
    exact .inr ⟨_, mem_entries_of_candidates hone, by simp⟩

theorem holds_standard_iff {handler : Handler} :
    standard.Holds handler ↔ handler = importSection := by
  constructor
  · rintro (hgeneric | ⟨entry, hentry, hhandler⟩)
    · cases hgeneric
    · rw [entries_standard, List.mem_singleton] at hentry
      subst hentry
      exact List.mem_singleton.1 hhandler
  · rintro rfl
    refine .inr ⟨("use", [importSection]), ?_, List.mem_singleton_self _⟩
    rw [entries_standard]
    exact List.mem_singleton_self _

theorem holds_register_standard {operation : String} {added handler : Handler}
    (hnew : Operation.normalForm operation ≠ "use")
    (h : (standard.register operation added).Holds handler) :
    handler = importSection ∨ handler = added := by
  rcases h with hgeneric | ⟨entry, hentry, hhandler⟩
  · cases hgeneric
  have hkeys : Operation.normalForm operation ∉ standard.handlers.keys := by
    simpa [OrderedMap.keys, entries_standard] using hnew
  have hnone : standard.handlers.getD (Operation.normalForm operation) [] = [] := by
    rw [OrderedMap.getD, OrderedMap.get?_eq_none_iff.2 hkeys, Option.getD_none]
  simp only [register, hnone, OrderedMap.entries_insert_of_notMem _ hkeys, entries_standard,
    List.mem_append, List.mem_singleton] at hentry
  rcases hentry with rfl | rfl
  · exact .inl (List.mem_singleton.1 hhandler)
  · exact .inr (List.mem_singleton.1 hhandler)

end Registry

/-! ## The standard registry -/

theorem passesOn_importSection (site : OptionSite) : (importSection site).PassesOn := by
  unfold importSection
  dsimp only
  split
  · refine ⟨fun fault => rfl, fun answer => ?_⟩
    cases answer <;> trivial
  · refine fun _ => ⟨fun fault => rfl, fun answer => ?_⟩
    cases answer with
    | error fault => trivial
    | ok state => exact fun _ _ => trivial

theorem Registry.passesOn_standard : standard.PassesOn := by
  intro handler hholds site
  rw [holds_standard_iff.1 hholds]
  exact passesOn_importSection site

section

variable {allowed : Request → Prop} (hstate : allowed .state)
  (hset : ∀ state, allowed (.setState state)) (hevaluate : ∀ name, allowed (.evaluate name))
  (hreport : ∀ fault, allowed (.report .minor fault)) (hdebug : ∀ text, allowed (.debug 2 text))

include hstate hset hevaluate hreport hdebug

/-- All that the handler of `use` asks for. -/
theorem only_importSection (site : OptionSite) : (importSection site).Only allowed := by
  unfold importSection
  dsimp only
  split
  · refine ⟨hreport _, fun answer => ?_⟩
    cases answer <;> trivial
  · refine ⟨hdebug _, fun _ => ⟨hevaluate _, fun answer => ?_⟩⟩
    cases answer with
    | error fault => trivial
    | ok state => exact ⟨hstate, fun _ => ⟨hset _, fun _ => trivial⟩⟩

theorem Registry.only_standard : standard.Only allowed := by
  intro handler hholds site
  rw [holds_standard_iff.1 hholds]
  exact only_importSection hstate hset hevaluate hreport hdebug site

end

/-- A further operation asks for what its handler asks for. -/
theorem Registry.only_register_standard {operation : String} {added : Handler}
    (hnew : Operation.normalForm operation ≠ "use") {allowed : Request → Prop}
    (hstandard : standard.Only allowed) (hadded : ∀ site, (added site).Only allowed) :
    (standard.register operation added).Only allowed := by
  intro handler hholds site
  rcases holds_register_standard hnew hholds with rfl | rfl
  · exact hstandard importSection (holds_standard_iff.2 rfl) site
  · exact hadded site

end IniCompose
