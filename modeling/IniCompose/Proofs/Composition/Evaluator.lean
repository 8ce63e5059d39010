import IniCompose.Proofs.Composition.Handlers
import IniCompose.Proofs.Composition.Runs
import IniCompose.Proofs.Evaluation.Kept

/-!
# The evaluator follows evaluation without a cache

Under a composing registry an evaluation passes with the effects, or fails with the fault, that the
items have without a cache. A cached state is the replay of what its section has without a cache,
and everything a cached section imports is cached too; so no section that is active can be reached
from a cached one, and taking a state from the cache hides no cycle.
-/
namespace IniCompose.Setup

/-- The cached states are the ones that evaluation without a cache yields, and what a cached section
imports is cached if it exists. -/
structure SoundCache (setup : Setup) (cache : OrderedMap SectionState) : Prop where
  passes : ∀ {name state}, cache.get? name = some state →
    ∃ effects, setup.Passes [] [.imports name] effects ∧ state = Effect.replay effects
  closed : ∀ {name target}, cache.contains name →
    setup.document.Imports setup.registry name target → setup.document.hasSection target →
    cache.contains target

/-- A session in which requests can be nested within a budget. -/
structure Ready (setup : Setup) (budget : Nat) (s : Session) : Prop where
  sound : setup.SoundCache s.cache
  uncached : ∀ name ∈ s.active.stack, s.cache.get? name = none
  exist : ∀ name ∈ s.active.stack, setup.document.hasSection name
  room : setup.document.size < s.active.depth + budget

/-- An outcome is the one that items have without a cache, applied on top of a state. -/
structure Evaluates (setup : Setup) (items : List Item) (s : Session) (state : SectionState)
    (outcome : Outcome Session Fault SectionState) : Prop where
  sound : setup.SoundCache outcome.state.cache
  passes : ∀ {final}, outcome.result = .ok final →
    ∃ effects, setup.Passes s.active.stack items effects ∧ final = state.applyAll effects
  caches : ∀ {final target}, outcome.result = .ok final → .imports target ∈ items →
    setup.document.hasSection target → outcome.state.cache.contains target
  fails : ∀ {fault}, outcome.result = .error fault → setup.Fails s.active.stack items fault

/-- Requests that may be nested within a budget are answered as evaluation without a cache does, and
a fault that answers one is remembered. -/
structure Follows (setup : Setup) (budget : Nat) (nested : Evaluator) : Prop where
  grows : ∀ name s, Grows s (nested name s).state
  raised : ∀ name s fault, setup.Ready budget s → (nested name s).result = .error fault →
    (nested name s).state.raised = some fault.message
  evaluates : ∀ name s, setup.Ready budget s → setup.Evaluates [.imports name] s ∅ (nested name s)

variable {setup : Setup} {s t : Session} {budget : Nat}

/-! ## Sound caches and sessions -/

theorem soundCache_empty : setup.SoundCache ∅ where
  passes := by simp
  closed := by simp

/-- Caching the state that a section has without a cache keeps a cache sound, if what the section
imports is cached. -/
theorem SoundCache.insert {cache : OrderedMap SectionState} (h : setup.SoundCache cache)
    {name : String} {options : Options} {items : List Item} {effects : List Effect}
    (hsome : setup.document.options? name = some options)
    (hreads : setup.registry.ReadsAll name options.entries items)
    (hpasses : setup.Passes [] [.imports name] effects)
    (hcached : ∀ target, .imports target ∈ items → setup.document.hasSection target →
      cache.contains target) :
    setup.SoundCache (cache.insert name (Effect.replay effects)) := by
  have hkept : ∀ target, cache.contains target →
      (cache.insert name (Effect.replay effects)).contains target := by
    intro target htarget
    rw [OrderedMap.contains, OrderedMap.get?_insert]
    split
    · rfl
    · exact htarget
  refine ⟨?_, ?_⟩
  · intro other state hstate
    rw [OrderedMap.get?_insert] at hstate
    split at hstate
    · next heq =>
      cases hstate
      exact ⟨effects, heq ▸ hpasses, rfl⟩
    · exact h.passes hstate
  · intro other target hother himports hexists
    by_cases heq : other = name
    · subst heq
      exact hkept _ (hcached target ((imports_iff hsome hreads).1 himports) hexists)
    · refine hkept _ (h.closed ?_ himports hexists)
      simpa [OrderedMap.contains, heq] using hother

/-- Nothing that is reached from a cached section is active. -/
theorem Ready.notMem_active (h : setup.Ready budget s) {name : String}
    (hname : s.cache.contains name ∨ setup.document.options? name = none) :
    name ∉ s.active.stack := by
  intro hmem
  rcases hname with hcached | hnone
  · simp [OrderedMap.contains, h.uncached name hmem] at hcached
  · obtain ⟨options, hsome⟩ := hasSection_iff.1 (h.exist name hmem)
    cases hnone.symm.trans hsome

/-- A cached state may be taken whatever sections are active. -/
theorem Ready.passes_of_cached (h : setup.Ready budget s) {name : String} {state : SectionState}
    (hcache : s.cache.get? name = some state) :
    ∃ effects, setup.Passes s.active.stack [.imports name] effects ∧
      state = Effect.replay effects := by
  obtain ⟨effects, hpasses, hstate⟩ := h.sound.passes hcache
  refine ⟨effects, ?_, hstate⟩
  refine hpasses.transfer
    (P := fun name => s.cache.contains name ∨ setup.document.options? name = none) ?_ ?_ ?_
  · intro other hother
    obtain rfl : other = name := by simpa using hother
    exact .inl (Option.isSome_of_eq_some hcache)
  · rintro other target (hcached | hnone) himports
    · by_cases hexists : setup.document.hasSection target
      · exact .inl (h.sound.closed hcached himports hexists)
      · refine .inr (Option.eq_none_iff_forall_ne_some.2 fun options hsome => hexists ?_)
        exact hasSection_iff.2 ⟨options, hsome⟩
    · exact absurd himports (not_imports_of_none hnone target)
  · intro other hother hmem
    exact absurd hmem (h.notMem_active hother)

theorem Ready.of_grows (h : setup.Ready budget s) (hgrows : Grows s t)
    (hsound : setup.SoundCache t.cache) : setup.Ready budget t where
  sound := hsound
  uncached name hname :=
    hgrows.spares (hgrows.active ▸ hname) (h.uncached name (hgrows.active ▸ hname))
  exist name hname := h.exist name (hgrows.active ▸ hname)
  room := hgrows.active ▸ h.room

theorem Ready.enter (h : setup.Ready (budget + 1) s) {name : String} {active : ActiveSections}
    (hcache : s.cache.get? name = none) (hexists : setup.document.hasSection name)
    (hpush : s.active.push name = .ok active) : setup.Ready budget { s with active } := by
  obtain ⟨-, hstack⟩ := ActiveSections.push_eq_ok_iff.1 hpush
  refine ⟨h.sound, ?_, ?_, ?_⟩
  · simpa [hstack, hcache] using h.uncached
  · simpa [hstack, hexists] using h.exist
  · have hroom := h.room
    simp only [ActiveSections.depth, hstack, List.length_cons] at hroom ⊢
    omega

theorem not_ready_zero : ¬ setup.Ready 0 s := by
  intro h
  have hdepth := depth_le_size h.exist
  have hroom := h.room
  omega

/-! ## Options -/

@[simp] theorem cache_report (severity : Severity) (fault : Fault) :
    (setup.report severity fault s).state.cache = s.cache := by
  rw [report_apply]
  split <;> rfl

/-- Putting a fault to the policy evaluates a malformed option. -/
theorem evaluates_malformed (hsound : setup.SoundCache s.cache) (fault : Fault)
    {state : SectionState} {outcome : Outcome Session Fault SectionState}
    (hcache : outcome.state.cache = s.cache)
    (hresult : outcome.result = (setup.report fault.severity fault s).result.map fun _ => state) :
    setup.Evaluates [.malformed fault] s state outcome := by
  rw [report_apply] at hresult
  by_cases hraised : setup.policy.decision fault.severity = .raise
  · have herror : outcome.result = .error fault := by simpa [hraised, Except.map] using hresult
    refine ⟨hcache ▸ hsound, ?_, ?_, ?_⟩
    · intro final hok
      cases herror.symm.trans hok
    · intro final target hok
      cases herror.symm.trans hok
    · intro other herror'
      cases herror.symm.trans herror'
      exact .malformed hraised
  · have hok : outcome.result = .ok state := by simpa [hraised, Except.map] using hresult
    refine ⟨hcache ▸ hsound, ?_, by simp, ?_⟩
    · intro final hok'
      cases hok.symm.trans hok'
      exact ⟨[], .malformed hraised .nil, rfl⟩
    · intro other herror
      cases hok.symm.trans herror

variable {nested : Evaluator}

/-- Dispatching `use` evaluates the import of the section that it names. -/
theorem evaluates_dispatch_import (site : OptionSite) (hparameter : site.key.parameter ≠ "")
    (hraised : ∀ fault, (nested site.key.parameter s).result = .error fault →
      (nested site.key.parameter s).state.raised = some fault.message)
    (himport : setup.Evaluates [.imports site.key.parameter] s ∅ (nested site.key.parameter s))
    (state : SectionState) :
    setup.Evaluates [.imports site.key.parameter] s state
      (setup.dispatch nested importSection site state s) := by
  rw [dispatch_apply]
  simp only [run_importSection setup nested site s state hparameter]
  cases hresult : (nested site.key.parameter s).result with
  | ok other =>
    obtain ⟨effects, hpasses, hother⟩ := himport.passes hresult
    refine ⟨himport.sound, ?_, fun _ => himport.caches hresult, by simp⟩
    rintro final ⟨⟩
    refine ⟨effects, hpasses, ?_⟩
    rw [hother]
    exact state.merge_replay effects
  | error fault =>
    have hfault : HandlerError.fault? (.fault fault) = some fault := rfl
    have hrouted : ∃ known, HandlerError.fault? (.fault fault) = some known ∧
        (nested site.key.parameter s).state.raised = some known.message :=
      ⟨fault, hfault, hraised fault hresult⟩
    simp only [settle_apply, if_pos hrouted]
    refine ⟨himport.sound, by simp [Except.map], by simp [Except.map], ?_⟩
    rintro other ⟨⟩
    exact himport.fails hresult

/-- Dispatching `use` without a name puts the option to the policy, once. -/
theorem evaluates_dispatch_nothing (site : OptionSite) (hparameter : site.key.parameter = "")
    (hsound : setup.SoundCache s.cache) (state : SectionState) :
    setup.Evaluates [.malformed (missingName site)] s state
      (setup.dispatch nested importSection site state s) := by
  have hmissing := run_importSection_of_empty setup nested site s state hparameter
  rw [dispatch_apply]
  simp only [hmissing]
  cases hresult : (setup.report .minor (missingName site) s).result with
  | ok _ =>
    refine evaluates_malformed hsound _ (by simp) ?_
    change _ = (setup.report .minor (missingName site) s).result.map _
    rw [hresult]
    rfl
  | error fault =>
    have hrouted : ∃ known, HandlerError.fault? (.fault fault) = some known ∧
        (setup.report .minor (missingName site) s).state.raised = some known.message :=
      ⟨fault, rfl, raised_of_report hresult⟩
    simp only [Except.mapError_error, settle_apply, if_pos hrouted]
    refine evaluates_malformed hsound _ (by simp) ?_
    change _ = (setup.report .minor (missingName site) s).result.map _
    rw [hresult]
    rfl

/-- One option, by what it asks for. -/
theorem evaluates_evalOption (hcomposes : setup.registry.Composes)
    (hnested : setup.Follows budget nested) {name : String} {option : String × String}
    {item : Item} (hreads : setup.registry.Reads name option item) (hready : setup.Ready budget s)
    (state : SectionState) :
    setup.Evaluates [item] s state (setup.evalOption nested name option.1 option.2 state s) := by
  cases hreads with
  | unresolved hresolve =>
    rw [evalOption_of_error setup hresolve]
    exact evaluates_malformed hready.sound _ (by simp) rfl
  | assign hresolve =>
    rw [evalOption_of_none setup hresolve (by simp [hcomposes.generic])]
    refine ⟨hready.sound, ?_, by simp, by simp⟩
    rintro final ⟨⟩
    exact ⟨_, .assign .nil, rfl⟩
  | act hresolve =>
    rw [evalOption_of_handler setup hresolve rfl, dispatch_apply]
    simp only [run_addAction]
    refine ⟨hready.sound, ?_, by simp, by simp⟩
    rintro final ⟨⟩
    exact ⟨_, .act .nil, rfl⟩
  | imports hresolve hparameter =>
    rw [evalOption_of_handler setup hresolve rfl]
    exact evaluates_dispatch_import ⟨name, _, _, _⟩ hparameter
      (fun fault => hnested.raised _ s fault hready) (hnested.evaluates _ s hready) state
  | importsNothing hresolve hparameter =>
    rw [evalOption_of_handler setup hresolve rfl]
    exact evaluates_dispatch_nothing ⟨name, _, _, _⟩ hparameter hready.sound state

/-- Induction on the options: the first one, then the rest in the session that it leaves. -/
theorem evaluates_evalOptions (hcomposes : setup.registry.Composes)
    (hnested : setup.Follows budget nested) {name : String} {entries : List (String × String)}
    {items : List Item}
    (hreads : setup.registry.ReadsAll name entries items) (hready : setup.Ready budget s)
    (state : SectionState) :
    setup.Evaluates items s state (setup.evalOptions nested name entries state s) := by
  induction hreads generalizing s state with
  | nil =>
    refine ⟨hready.sound, ?_, by simp, by simp [evalOptions, Journaled.pure_apply]⟩
    rintro final ⟨⟩
    exact ⟨[], .nil, rfl⟩
  | @cons option item rest items hitem _ ih =>
    have hfirst := evaluates_evalOption hcomposes hnested hitem hready state
    have hgrown := setup.bracketed_grows.evalOption hnested.grows name option.1 option.2 state s
    rw [evalOptions, Journaled.bind_apply]
    generalize setup.evalOption nested name option.1 option.2 state s = first at hfirst hgrown ⊢
    obtain ⟨result, after, journal⟩ := first
    cases result with
    | error fault =>
      refine ⟨hfirst.sound, by simp, by simp, ?_⟩
      intro other hother
      cases hother
      exact (hfirst.fails rfl).cons items
    | ok next =>
      have hrest := ih (hready.of_grows hgrown hfirst.sound) next
      have hgrown' := setup.bracketed_grows.evalOptions hnested.grows name rest next after
      obtain ⟨inner, hinner, hnext⟩ := hfirst.passes rfl
      refine ⟨hrest.sound, ?_, ?_, ?_⟩
      · intro final hfinal
        obtain ⟨effects, hpasses, hstate⟩ := hrest.passes hfinal
        refine ⟨inner ++ effects, hinner.cons (hgrown.active ▸ hpasses), ?_⟩
        rw [hstate, hnext, SectionState.applyAll_append]
      · intro final target hfinal hmem hexists
        rcases List.mem_cons.1 hmem with rfl | hmem
        · exact hgrown'.contains (hfirst.caches rfl (by simp) hexists)
        · exact hrest.caches hfinal hmem hexists
      · intro fault hfault
        exact .later hinner (hgrown.active ▸ hrest.fails hfault)

/-! ## Sections -/

/-- An absent section is put to the policy. -/
theorem evaluates_visit_absent {name : String} {active : ActiveSections}
    (hready : setup.Ready budget s) (hcache : s.cache.get? name = none)
    (hpush : s.active.push name = .ok active) (hnone : setup.document.options? name = none) :
    setup.Evaluates [.imports name] s ∅ (setup.visit nested name s) := by
  have hmissing : ¬ setup.document.hasSection name := by
    rw [hasSection_iff, hnone]
    simp
  rw [visit_of_entered setup hcache hpush, evalBody_of_none setup hnone, report_apply]
  by_cases hraise : setup.policy.decision .serious = .raise
  · simp only [hraise, if_true, Except.map]
    refine ⟨hready.sound, by simp, by simp, ?_⟩
    rintro fault ⟨⟩
    exact .absent hnone hraise
  · simp only [hraise, if_false, Except.map]
    refine ⟨hready.sound, ?_, ?_, by simp⟩
    · rintro final ⟨⟩
      exact ⟨[], .absent hnone hraise .nil, rfl⟩
    · intro final target _ hmem hexists
      obtain rfl : target = name := by simpa using hmem
      exact absurd hexists hmissing

theorem evaluates_visit (hcomposes : setup.registry.Composes)
    (hnested : setup.Follows budget nested) (name : String) (hready : setup.Ready (budget + 1) s) :
    setup.Evaluates [.imports name] s ∅ (setup.visit nested name s) := by
  cases hcache : s.cache.get? name with
  | some state =>
    rw [visit_of_cached setup hcache]
    refine ⟨hready.sound, ?_, ?_, by simp⟩
    · rintro final ⟨⟩
      exact hready.passes_of_cached hcache
    · intro final target _ hmem _
      obtain rfl : target = name := by simpa using hmem
      exact Option.isSome_of_eq_some hcache
  | none =>
    cases hpush : s.active.push name with
    | error fault =>
      have hmem : name ∈ s.active.stack := by
        by_contra hmem
        simp [ActiveSections.push, hmem] at hpush
      obtain ⟨options, hsome⟩ := hasSection_iff.1 (hready.exist name hmem)
      rw [visit_of_active setup hcache hpush]
      refine ⟨hready.sound, by simp, by simp, ?_⟩
      rintro other ⟨⟩
      simp only [ActiveSections.push, hmem, dif_pos, Except.error.injEq] at hpush
      subst hpush
      exact .cycle hmem hsome
    | ok active =>
      cases hoptions : setup.document.options? name with
      | none => exact evaluates_visit_absent hready hcache hpush hoptions
      | some options =>
        obtain ⟨hfree, hstack⟩ := ActiveSections.push_eq_ok_iff.1 hpush
        obtain ⟨items, hreads⟩ := hcomposes.exists_readsAll name options.entries
        have hinside := hready.enter hcache (hasSection_iff.2 ⟨options, hoptions⟩) hpush
        have hbody := evaluates_evalOptions hcomposes hnested hreads hinside ∅
        rw [visit_of_entered setup hcache hpush, evalBody_of_some setup hoptions]
        generalize setup.evalOptions nested name options.entries ∅ { s with active } = body
          at hbody ⊢
        obtain ⟨result, after, journal⟩ := body
        cases result with
        | error fault =>
          refine ⟨hbody.sound, by simp [Except.map], by simp [Except.map], ?_⟩
          rintro other ⟨⟩
          have hfails := hbody.fails rfl
          rw [hstack] at hfails
          exact .inside hfree hoptions hreads hfails
        | ok state =>
          obtain ⟨effects, hinner, hstate⟩ := hbody.passes rfl
          rw [hstack] at hinner
          have hpasses : setup.Passes s.active.stack [.imports name] effects := by
            simpa using Passes.inlined hfree hoptions hreads hinner .nil
          have hsound := hbody.sound.insert hoptions hreads hpasses.inactive
            (fun target => hbody.caches rfl)
          have hreplay : state = Effect.replay effects := hstate
          subst hreplay
          refine ⟨hsound, ?_, ?_, by simp [Except.map]⟩
          · rintro final ⟨⟩
            exact ⟨effects, hpasses, rfl⟩
          · intro final target _ hmem _
            obtain rfl : target = name := by simpa using hmem
            simp [Except.map, leave, OrderedMap.contains]

/-- Induction on the budget: one more level of requests. -/
theorem follows_evaluateWithin (hcomposes : setup.registry.Composes) (budget : Nat) :
    setup.Follows budget (setup.evaluateWithin budget) := by
  induction budget with
  | zero =>
    exact ⟨setup.grows_evaluateWithin 0, fun _ _ _ h => absurd h not_ready_zero,
      fun _ _ h => absurd h not_ready_zero⟩
  | succ budget ih =>
    exact ⟨setup.grows_evaluateWithin _, fun _ _ _ _ h => raised_of_visit h,
      fun name _ h => evaluates_visit hcomposes ih name h⟩

end IniCompose.Setup
