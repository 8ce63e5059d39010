import IniCompose.Proofs.Composition.Inlining
import Mathlib.Data.List.Chain

/-!
# Cycles of imports

Under the standard registry a section uses another if one of its options says so. An evaluation that
succeeds proves that no cycle of uses can be reached from the section. Unless the policy is strict,
an evaluation fails only if one can be reached; its fault then names the sections on the way into
the cycle, and none of these is cached.
-/
namespace IniCompose

open Relation

/-- A cycle can be reached along a relation. -/
def ReachesCycle {α : Type} (edge : α → α → Prop) (a : α) : Prop :=
  ∃ b, ReflTransGen edge a b ∧ TransGen edge b b

theorem not_reachesCycle_of_acc {α : Type} {edge : α → α → Prop} {a : α}
    (h : Acc (fun b a => edge a b) a) : ¬ ReachesCycle edge a := by
  induction h with
  | intro a _ ih =>
    rintro ⟨b, hreach, hcycle⟩
    rcases hreach.cases_head with rfl | ⟨c, hedge, hreach⟩
    · obtain ⟨c, hedge, hback⟩ := TransGen.head'_iff.1 hcycle
      exact ih c hedge ⟨_, hback, hcycle⟩
    · exact ih c hedge ⟨b, hreach, hcycle⟩

/-- From every section of a chain that ends where it has been before, a cycle can be reached. -/
theorem reachesCycle_of_isChain {α : Type} {edge : α → α → Prop} {path : List α} {last : α}
    (h : (path ++ [last]).IsChain edge) (hlast : last ∈ path) {a : α} (ha : a ∈ path) :
    ReachesCycle edge a := by
  have hpairs : (path ++ [last]).Pairwise (TransGen edge) :=
    (h.imp fun _ _ hedge => TransGen.single hedge).pairwise
  have hend : ∀ b ∈ path, TransGen edge b last := by
    intro b hb
    exact (List.pairwise_append.1 hpairs).2.2 b hb last (by simp)
  exact ⟨last, (hend a ha).to_reflTransGen, hend last hlast⟩

/-- An option of an existing section splits into the operation `use` and the name of a section. -/
def Document.Uses (document : Document) (name target : String) : Prop :=
  ∃ options, document.options? name = some options ∧
    ∃ stored value resolved, (stored, value) ∈ options.entries ∧
      Registry.standard.resolveKey name stored = .ok resolved ∧
      resolved.key.operation = some "use" ∧ resolved.key.parameter = target ∧ target ≠ ""

/-- Under the standard registry, to use a section is to import it. -/
theorem Document.uses_iff_imports {document : Document} {name target : String} :
    document.Uses name target ↔ document.Imports .standard name target := by
  constructor
  · rintro ⟨options, hsome, stored, value, ⟨key, handler⟩, hmem, hresolve, hoperation, rfl, hne⟩
    refine ⟨options, hsome, (stored, value), hmem, ?_⟩
    rcases Registry.handler_standard hresolve with ⟨hnone, -⟩ | ⟨-, rfl⟩
    · cases hnone.symm.trans hoperation
    · exact .imports hresolve hne
  · rintro ⟨options, hsome, ⟨stored, value⟩, hmem, hreads⟩
    generalize hitem : Item.imports target = item at hreads
    cases hreads with
    | imports hresolve hne =>
      cases hitem
      rcases Registry.handler_standard hresolve with ⟨-, hnone, -⟩ | ⟨hoperation, -⟩
      · cases hnone
      · exact ⟨options, hsome, stored, value, _, hmem, hresolve, hoperation, rfl, hne⟩
    | unresolved _ | assign _ | act _ | importsNothing _ _ => cases hitem

/-- Up to strictness 2 only critical faults are raised. -/
theorem Policy.decision_ne_raise {policy : Policy} (h : policy.level.val ≤ 2) {severity : Severity}
    (hsevere : severity ≠ .critical) : policy.decision severity ≠ .raise := by
  intro hraise
  have hfrom := Severity.decision_eq_raise_iff.1 hraise
  cases severity with
  | critical => exact hsevere rfl
  | warning | minor | serious =>
    simp only [Severity.raisedFrom] at hfrom
    omega

namespace Setup

variable {setup : Setup} {active : List String} {items : List Item}

/-- Under the standard registry malformed options are minor faults. -/
theorem severity_of_reads_malformed {name : String} {option : String × String} {fault : Fault}
    (h : Registry.standard.Reads name option (.malformed fault)) : fault.severity = .minor := by
  generalize hitem : Item.malformed fault = item at h
  cases h with
  | unresolved hresolve =>
    cases hitem
    obtain ⟨key, detail, rfl⟩ := Registry.resolveKey_standard_eq_error hresolve
    rfl
  | importsNothing _ _ =>
    cases hitem
    rfl
  | assign _ | act _ | imports _ _ => cases hitem

/-- What fails for another reason than a serious or minor fault fails with a chain of imports that
leads from one of the items to a section that is active or on the chain. -/
theorem Fails.exists_chain {fault : Fault} (h : setup.Fails active items fault)
    (hminor : setup.policy.decision .minor ≠ .raise)
    (hserious : setup.policy.decision .serious ≠ .raise)
    (hregistry : setup.registry = .standard)
    (hitems : ∀ fault, .malformed fault ∈ items → fault.severity = .minor) :
    ∃ path last first, fault = .circularReference last (active.reverse ++ path ++ [last]) ∧
      .imports first ∈ items ∧ (path ++ [last]).head? = some first ∧
      (path ++ [last]).IsChain (setup.document.Imports setup.registry) ∧
      last ∈ active ++ path ∧ path.Nodup ∧ ∀ name ∈ path, name ∉ active := by
  induction h with
  | @malformed _ fault _ hraised =>
    rw [hitems fault (by simp)] at hraised
    exact absurd hraised hminor
  | absent _ hraised => exact absurd hraised hserious
  | @cycle active name _ _ hmem _ =>
    refine ⟨[], name, name, by simp, by simp, rfl, ?_, by simp [hmem], by simp, by simp⟩
    exact .singleton name
  | @inside active name options items rest fault hfree hsome hreads _ ih =>
    have hinner : ∀ fault, .malformed fault ∈ items → fault.severity = .minor := by
      intro fault hfault
      obtain ⟨option, -, hoption⟩ := hreads.mem_iff.1 hfault
      exact severity_of_reads_malformed (hregistry ▸ hoption)
    obtain ⟨path, last, first, hchain, hfirst, hhead, hedges, hlast, hnodup, houtside⟩ := ih hinner
    refine ⟨name :: path, last, name, ?_, by simp, rfl, ?_, ?_, ?_, ?_⟩
    · simpa using hchain
    · have himports := (imports_iff hsome hreads).2 hfirst
      cases path with
      | nil =>
        obtain rfl : last = first := by simpa using hhead
        simpa using himports
      | cons next path =>
        obtain rfl : next = first := by simpa using hhead
        exact List.isChain_cons_cons.2 ⟨himports, hedges⟩
    · have hlast' : last = name ∨ last ∈ active ∨ last ∈ path := by simpa [or_assoc] using hlast
      simp only [List.mem_append, List.mem_cons]
      tauto
    · exact List.nodup_cons.2 ⟨fun h => houtside name h (by simp), hnodup⟩
    · intro other hother
      rcases List.mem_cons.1 hother with rfl | hother
      · exact hfree
      · exact fun h => houtside other hother (by simp [h])
  | later _ _ ih =>
    obtain ⟨path, last, first, hchain, hfirst, hrest⟩ :=
      ih fun fault hfault => hitems fault (by simp [hfault])
    exact ⟨path, last, first, hchain, List.mem_cons_of_mem _ hfirst, hrest⟩

theorem uses_eq_imports (hregistry : setup.registry = .standard) :
    setup.document.Uses = setup.document.Imports setup.registry := by
  funext name target
  rw [hregistry]
  exact propext Document.uses_iff_imports

theorem Passes.not_reachesCycle (hregistry : setup.registry = .standard) {name : String}
    {effects : List Effect} (h : setup.Passes [] [.imports name] effects) :
    ¬ ReachesCycle setup.document.Uses name := by
  rw [uses_eq_imports hregistry]
  exact not_reachesCycle_of_acc (h.acc (by simp))

/-- Unless the policy is strict, a section that fails has entered a cycle. -/
theorem Fails.exists_cycle (hregistry : setup.registry = .standard)
    (hlevel : setup.policy.level.val ≤ 2) {name : String} {fault : Fault}
    (h : setup.Fails [] [.imports name] fault) :
    ∃ entered last, fault = .circularReference last (entered ++ [last]) ∧
      entered.head? = some name ∧ last ∈ entered ∧ entered.Nodup ∧
      (entered ++ [last]).IsChain setup.document.Uses := by
  obtain ⟨entered, last, first, hfault, hfirst, hhead, hedges, hlast, hnodup, -⟩ :=
    h.exists_chain (Policy.decision_ne_raise hlevel (by simp))
      (Policy.decision_ne_raise hlevel (by simp)) hregistry (by simp)
  obtain rfl : first = name := by simpa using hfirst
  have hmem : last ∈ entered := by simpa using hlast
  obtain ⟨top, rest, rfl⟩ := List.exists_cons_of_ne_nil (List.ne_nil_of_mem hmem)
  rw [uses_eq_imports hregistry]
  exact ⟨_, last, by simpa using hfault, by simpa using hhead, hmem, hnodup, hedges⟩

end Setup

namespace Engine

variable {engine : Engine}

/-- An existing section that evaluates to a state is cached then. -/
theorem isCached_of_evaluate (hcomposes : engine.registry.Composes)
    (hsound : engine.SoundCache engine.cache) {name : String} {state : SectionState}
    (hresult : (evaluate name engine).result = .ok state) (hexists : engine.hasSection name) :
    (evaluate name engine).state.isCached name := by
  cases hcache : engine.cache.get? name with
  | some kept =>
    rw [evaluate_of_cached hcache]
    exact Option.isSome_of_eq_some hcache
  | none =>
    rw [evaluate_of_uncached hcache] at hresult ⊢
    exact (Setup.evaluates_evaluate hcomposes hsound name).caches hresult (by simp) hexists

/-- Everything that can be reached from a cached section is cached, if it exists. -/
theorem isCached_of_reflTransGen (hsound : engine.SoundCache engine.cache) {name target : String}
    (hcached : engine.hasSection name → engine.isCached name)
    (hreach : ReflTransGen (engine.document.Imports engine.registry) name target)
    (hexists : engine.hasSection target) : engine.isCached target := by
  induction hreach with
  | refl => exact hcached hexists
  | tail _ himports ih =>
    obtain ⟨options, hsome, -⟩ := id himports
    have hmiddle := ih (Setup.hasSection_iff.2 ⟨options, hsome⟩)
    exact hsound.closed hmiddle himports hexists

/-- The detection of cycles is sound and complete. -/
theorem evaluate_detects_cycles (hreached : Reached .standard engine) (name : String) :
    (∀ state, (evaluate name engine).result = .ok state →
      ¬ ReachesCycle engine.document.Uses name ∧
      ∀ target, ReflTransGen engine.document.Uses name target → engine.hasSection target →
        (evaluate name engine).state.isCached target) ∧
    (engine.settings.level.toNat ≤ 2 →
      ((∃ fault, (evaluate name engine).result = .error fault) ↔
        ReachesCycle engine.document.Uses name) ∧
      ∀ fault, (evaluate name engine).result = .error fault →
        ∃ entered last, fault = .circularReference last (entered ++ [last]) ∧
          fault.message = "Circular reference detected while parsing [" ++ last ++ "]: " ++
            " -> ".intercalate (entered ++ [last]) ∧
          entered.head? = some name ∧ last ∈ entered ∧ entered.Nodup ∧
          (entered ++ [last]).IsChain engine.document.Uses ∧
          ∀ other ∈ entered, ¬ (evaluate name engine).state.isCached other) := by
  have hcomposes := Registry.composes_standard
  obtain ⟨hregistry, hsound⟩ := hreached.soundCache hcomposes
  obtain ⟨-, hsound'⟩ := (hreached.step (.evaluate name)).soundCache hcomposes
  change (evaluate name engine).state.SoundCache (evaluate name engine).state.cache at hsound'
  have hcases := evaluate_cases (hregistry ▸ hcomposes) hsound name
  refine ⟨?_, fun hlevel => ?_⟩
  · intro state hresult
    rcases hcases with ⟨effects, hpasses, -⟩ | ⟨fault, -, hfails⟩
    · refine ⟨hpasses.not_reachesCycle hregistry, fun target hreach hexists => ?_⟩
      rw [Setup.uses_eq_imports hregistry] at hreach
      refine isCached_of_reflTransGen hsound' ?_ (by simpa using hreach) (by simpa [hasSection])
      intro hname
      exact isCached_of_evaluate (hregistry ▸ hcomposes) hsound hresult
        (by simpa [hasSection] using hname)
    · cases hfails.symm.trans hresult
  · have hlenient : engine.policy.level.val ≤ 2 :=
      (Settings.level_of_policy engine.policy_eq).trans_le hlevel
    have hfailure : ∀ fault, (evaluate name engine).result = .error fault →
        engine.Fails [] [.imports name] fault := by
      intro fault hresult
      rcases hcases with ⟨effects, -, hok⟩ | ⟨fault', hfails, herror⟩
      · cases hok.symm.trans hresult
      · cases herror.symm.trans hresult
        exact hfails
    refine ⟨⟨?_, ?_⟩, ?_⟩
    · rintro ⟨fault, hresult⟩
      obtain ⟨entered, last, -, hhead, hlast, -, hedges⟩ :=
        (hfailure fault hresult).exists_cycle hregistry hlenient
      exact reachesCycle_of_isChain hedges hlast (List.mem_of_head? hhead)
    · intro hcycle
      rcases hcases with ⟨effects, hpasses, -⟩ | ⟨fault, -, hresult⟩
      · exact absurd hcycle (hpasses.not_reachesCycle hregistry)
      · exact ⟨fault, hresult⟩
    · intro fault hresult
      obtain ⟨entered, last, rfl, hhead, hlast, hnodup, hedges⟩ :=
        (hfailure fault hresult).exists_cycle hregistry hlenient
      refine ⟨entered, last, rfl, rfl, hhead, hlast, hnodup, hedges, fun other hother hcached => ?_⟩
      obtain ⟨state, hstate⟩ := Option.isSome_iff_exists.1 hcached
      obtain ⟨effects, hpasses, -⟩ := hsound'.passes hstate
      refine hpasses.not_reachesCycle (by simpa using hregistry) ?_
      rw [toSetup_evaluate]
      exact reachesCycle_of_isChain hedges hlast hother

/-- A section that uses itself, one that uses it, and one that uses nothing. -/
def looping : Document :=
  ⟨.ofList [("A", .ofList [("use B", "")]), ("B", .ofList [("use B", "")]),
    ("C", .ofList [("x", "1")])]⟩

/-- The cycle is found from outside, and does not touch the section beside it. -/
theorem evaluate_detects_cycles_looping :
    ∃ engine, ofDocument looping .standard { level := 2 } = .ok engine ∧
      (Operation.run engine (.evaluate "C")).settings.level.toNat ≤ 2 ∧
      Reached .standard (Operation.run engine (.evaluate "C")) ∧
      (evaluate "A" (Operation.run engine (.evaluate "C"))).result =
        .error (.circularReference "B" ["A", "B", "B"]) ∧
      ReachesCycle engine.document.Uses "A" ∧ ¬ ReachesCycle engine.document.Uses "C" := by
  obtain ⟨engine, hengine, hlevel, hfailed, halone⟩ : ∃ engine,
      ofDocument looping .standard { level := 2 } = .ok engine ∧
      (Operation.run engine (.evaluate "C")).settings.level.toNat ≤ 2 ∧
      (evaluate "A" (Operation.run engine (.evaluate "C"))).result =
        .error (.circularReference "B" ["A", "B", "B"]) ∧
      (evaluate "C" engine).result = .ok ⟨.ofList [("x", "1")], []⟩ :=
    ⟨_, rfl, by decide, by rfl, by rfl⟩
  have hstart : Reached .standard engine := .start hengine
  have hreached := hstart.step (.evaluate "C")
  have hcycle := evaluate_detects_cycles hreached "A"
  have hfree := evaluate_detects_cycles hstart "C"
  refine ⟨engine, hengine, hlevel, hreached, hfailed, ?_, ?_⟩
  · simpa [Operation.run] using (hcycle.2 hlevel).1.1 ⟨_, hfailed⟩
  · exact (hfree.1 _ halone).1

end Engine

end IniCompose
