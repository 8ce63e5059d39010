import IniCompose.Proofs.Engine.Steps
import IniCompose.Proofs.Evaluation.Lockstep
import IniCompose.Proofs.Evaluation.Surfacing
import Mathlib.Data.List.Forall2

/-!
# Lowering the strictness

What a policy raises a laxer one may pass over, and what it passes over a laxer one passes over too.
So as long as the stricter of two runs raises nothing the runs go through the same steps. Where
handlers fail with the faults that they are answered, a run that succeeds has raised nothing, and
succeeds in the same way under every laxer policy.
-/
namespace IniCompose

/-- The same entry, or the entry of a fault that is passed over without the warning. -/
inductive Trace.Entry.Softens : Trace.Entry → Trace.Entry → Prop
  | same (entry) : Softens entry entry
  | silenced (severity fault depth) :
    Softens (Policy.faultEntry severity .silent fault depth)
      (Policy.faultEntry severity .warn fault depth)

/-- The traces agree entry by entry, but for warnings that are not given. -/
def Trace.Softens (trace trace' : Trace) : Prop := List.Forall₂ Trace.Entry.Softens trace trace'

theorem Trace.Softens.refl (trace : Trace) : trace.Softens trace :=
  List.forall₂_same.2 fun entry _ => .same entry

theorem Severity.warn_of_silent {severity : Severity} {m n : Nat} (hmn : m ≤ n)
    (h : severity.decision n = .silent) : severity.decision m = .silent := by
  unfold decision at h ⊢
  split at h
  · cases h
  · split at h
    · cases h
    · rw [if_neg (by omega), if_neg (by omega)]

/-- A fault that two policies pass over. -/
theorem Policy.softens_faultEntry {lax strict : Policy} (hlevel : lax.level ≤ strict.level)
    {severity : Severity} (h : strict.decision severity ≠ .raise) (fault : Fault) (depth : Nat) :
    (faultEntry severity (lax.decision severity) fault depth).Softens
      (faultEntry severity (strict.decision severity) fault depth) := by
  have hlax : lax.decision severity ≠ .raise := fun hraise =>
    h (Severity.decision_raise_mono hlevel hraise)
  cases hstrict : strict.decision severity with
  | raise => exact absurd hstrict h
  | silent =>
    rw [show lax.decision severity = .silent from Severity.warn_of_silent hlevel hstrict]
    exact .same _
  | warn =>
    cases hdecision : lax.decision severity with
    | raise => exact absurd hdecision hlax
    | warn => exact .same _
    | silent => exact .silenced _ _ _

namespace Setup

variable {lax strict : Setup}

@[simp] theorem trace_entry_cons (entry : Trace.Entry) (rest : Journal) :
    Journal.trace (.entry entry :: rest) = entry :: rest.trace := rfl

@[simp] theorem trace_announcement (policy : Policy) (severity : Severity) (fault : Fault) :
    (policy.announcement severity fault).trace = [] := by
  refine List.filterMap_eq_nil_iff.2 fun event hevent => ?_
  obtain ⟨verbosity, text, rfl⟩ := Policy.mem_announcement hevent
  rfl

@[simp] theorem trace_debugNotice (setup : Setup) (level : UInt8) (text : String) :
    (setup.debugNotice level text).trace = [] := by
  refine List.filterMap_eq_nil_iff.2 fun event hevent => ?_
  obtain ⟨verbosity, message, rfl⟩ := setup.mem_debugNotice hevent
  rfl

@[simp] theorem trace_opening (setup : Setup) (name : String) (depth : Nat) :
    (setup.opening name depth).trace = [⟨.sectionEntry, name, depth, .ofList []⟩] := by
  rw [opening, trace_entry_cons, trace_debugNotice]

/-- Two runs of which the second is stricter, as long as nothing is raised. -/
def softened : Comparison where
  related s s' := s = s' ∧ s.raised = none
  alike j j' := j.trace.Softens j'.trace
  parted _ j' := j'.lastRaised ≠ none

theorem softened_report (hlevel : lax.policy.level ≤ strict.policy.level) {s : Session}
    (hs : s.raised = none) (severity : Severity) (fault : Fault) :
    softened.Matches softened.related (lax.report severity fault s)
      (strict.report severity fault s) := by
  by_cases hstrict : strict.policy.decision severity = .raise
  · left
    simp [softened, lastRaised_report, hstrict]
  · have hlax : lax.policy.decision severity ≠ .raise := fun hraise =>
      hstrict (Severity.decision_raise_mono hlevel hraise)
    have hentry := Policy.softens_faultEntry hlevel hstrict fault s.active.depth
    rw [report_apply, report_apply]
    simp only [hstrict, hlax, if_false]
    refine .inr ⟨rfl, ⟨rfl, hs⟩, ?_⟩
    simp only [softened, trace_entry_cons, trace_announcement]
    exact .cons hentry .nil

/-- Handlers that do not read the settings cannot tell the runs apart. -/
theorem softened_laws (hregistry : strict.registry = lax.registry)
    (hlevel : lax.policy.level ≤ strict.policy.level) :
    softened.Laws lax strict (· ≠ .settings) where
  registry := hregistry
  alike_nil := .nil
  alike_append h h' := by
    simp only [softened, Journal.trace_append]
    exact List.rel_append h h'
  parted_append k k' h := by
    simpa [softened] using fun _ => h
  parted_after j j' h := by
    simp only [softened, Journal.lastRaised_append] at h ⊢
    simp [h]
  entry h _ _ _ _ _ _ := h.1 ▸ .refl _
  custom h _ _ _ := h.1 ▸ .refl _
  note _ := .nil
  notice level text := by simp [softened, Trace.Softens]
  depth _ _ _ h := h.1 ▸ rfl
  settings h := absurd rfl h
  report {s _} h severity fault _ := by
    obtain ⟨rfl, hs⟩ := h
    exact softened_report hlevel hs severity fault
  settle {s _} h site error := by
    obtain ⟨rfl, hs⟩ := h
    have hnew : ¬ ∃ fault, error.fault? = some fault ∧ s.raised = some fault.message := by
      simp [hs]
    rw [settle_apply, settle_apply, if_neg hnew, if_neg hnew]
    exact softened_report hlevel hs _ _

section

variable (hdocument : strict.document = lax.document) (hregistry : strict.registry = lax.registry)
  (hlevel : lax.policy.level ≤ strict.policy.level) (honly : lax.registry.Only (· ≠ .settings))

include hdocument hregistry hlevel honly

theorem softened_visit {nested nested' : Evaluator}
    (hnested : ∀ name {s s'}, softened.related s s' →
      softened.Matches softened.related (nested name s) (nested' name s'))
    (name : String) {s : Session} (hs : s.raised = none) :
    softened.Matches softened.related (lax.visit nested name s) (strict.visit nested' name s) := by
  have hlaws := softened_laws hregistry hlevel
  cases hcache : s.cache.get? name with
  | some state =>
    rw [visit_of_cached lax hcache, visit_of_cached strict hcache]
    exact .inr ⟨rfl, ⟨rfl, hs⟩, hlaws.notice _ _⟩
  | none =>
    cases hpush : s.active.push name with
    | error fault =>
      rw [visit_of_active lax hcache hpush, visit_of_active strict hcache hpush]
      left
      simp [softened, Journal.lastRaised_cons, Event.raised?_faultEntry]
    | ok active =>
      have hoptions : strict.document.options? name = lax.document.options? name := by
        rw [hdocument]
      have hentered : softened.related { s with active } { s with active } := ⟨rfl, hs⟩
      have hbody := hlaws.evalBody hnested honly hoptions hentered
      have hopening :
          softened.alike (lax.opening name active.depth) (strict.opening name active.depth) := by
        simp only [softened, trace_opening]
        exact .refl _
      obtain hparted | ⟨hresult, ⟨hstate, hraised⟩, halike⟩ := hbody
      · obtain ⟨last, hjournal, -⟩ := lax.journal_visit_of_entered hcache hpush nested
        obtain ⟨last', hjournal', -⟩ := strict.journal_visit_of_entered hcache hpush nested'
        left
        rw [hjournal, hjournal']
        exact hlaws.parted_append _ _ (hlaws.parted_after _ _ hparted)
      · have hdone := hlaws.alike_append hopening halike
        rw [visit_of_entered lax hcache hpush, visit_of_entered strict hcache hpush]
        dsimp only
        rw [← hresult, ← hstate]
        cases (lax.evalBody nested name { s with active }).result with
        | error fault => exact .inr ⟨rfl, ⟨rfl, hraised⟩, hdone⟩
        | ok state? =>
          refine .inr ⟨rfl, ⟨rfl, ?_⟩, hlaws.alike_append hdone (.refl _)⟩
          simpa using hraised

/-- Induction on the budget: the runs go through the same steps. -/
theorem softened_evaluateWithin (budget : Nat) (name : String) {s : Session}
    (hs : s.raised = none) :
    softened.Matches softened.related (lax.evaluateWithin budget name s)
      (strict.evaluateWithin budget name s) := by
  induction budget generalizing name s with
  | zero => exact .inr ⟨rfl, ⟨rfl, hs⟩, .nil⟩
  | succ budget ih =>
    refine softened_visit hdocument hregistry hlevel honly (fun target _ _ ht => ?_) name hs
    obtain ⟨rfl, hraised⟩ := ht
    exact ih target hraised

/-- A success that is reached without raising a fault is reached at every lower strictness. -/
theorem softened_evaluate (hpass : lax.registry.PassesOn) {name : String} {s : Session}
    (hs : s.raised = none) {state : SectionState}
    (h : (strict.evaluate name s).result = .ok state) :
    (lax.evaluate name s).result = .ok state ∧
      (lax.evaluate name s).state = (strict.evaluate name s).state ∧
      (lax.evaluate name s).journal.trace.Softens (strict.evaluate name s).journal.trace := by
  have hsurface := evaluateWithin_surfaces (hregistry ▸ hpass) (strict.document.size + 1) name s
  have hquiet := hsurface.lastRaised_eq_none h
  have hmatch := softened_evaluateWithin hdocument hregistry hlevel honly
    (strict.document.size + 1) name hs
  rw [evaluate, ← hdocument]
  obtain hparted | ⟨hresult, ⟨hstate, -⟩, halike⟩ := hmatch
  · exact absurd hquiet hparted
  · exact ⟨hresult.trans h, hstate, halike⟩

end

end Setup

namespace Engine

/-- Over one document and one registry, whose handlers fail with the faults that they are answered
and do not read the settings: what an engine evaluates successfully, an engine of lower strictness
evaluates to the same state, keeping the same states and recording the same trace but for warnings
that it does not give. -/
theorem evaluate_of_stricter {document : Document} {registry : Registry} {lower higher : Settings}
    {lax strict : Engine} (hlax : ofDocument document registry lower = .ok lax)
    (hstrict : ofDocument document registry higher = .ok strict)
    (hlevel : lower.level ≤ higher.level) (hpass : registry.PassesOn)
    (honly : registry.Only (· ≠ .settings)) {name : String} {state : SectionState}
    (h : (evaluate name strict).result = .ok state) :
    (evaluate name lax).result = .ok state ∧
      (evaluate name lax).state.cache = (evaluate name strict).state.cache ∧
      (evaluate name lax).state.trace.Softens (evaluate name strict).state.trace := by
  obtain ⟨hdocument, hregistry, hsettings, hcache⟩ := ofDocument_eq_ok hlax
  obtain ⟨hdocument', hregistry', hsettings', hcache'⟩ := ofDocument_eq_ok hstrict
  have hpolicy : lax.policy.level ≤ strict.policy.level := by
    rw [Fin.le_def, Settings.level_of_policy lax.policy_eq,
      Settings.level_of_policy strict.policy_eq, hsettings, hsettings']
    exact hlevel
  have hlax : lax.cache.get? name = none := by rw [hcache]; rfl
  have hstrict : strict.cache.get? name = none := by rw [hcache']; rfl
  rw [evaluate_of_uncached hstrict] at h ⊢
  rw [evaluate_of_uncached hlax]
  simp only [inSession, hcache, hcache'] at h ⊢
  obtain ⟨hresult, hstate, htrace⟩ := Setup.softened_evaluate (hdocument'.trans hdocument.symm)
    (hregistry'.trans hregistry.symm) hpolicy (hregistry ▸ honly) (hregistry ▸ hpass) rfl h
  exact ⟨hresult, congrArg Session.cache hstate, htrace⟩

/-- An option that imports an absent section, before one that is assigned. -/
def importing : Document := ⟨.ofList [("A", .ofList [("use Ghost", ""), ("k", "v")])]⟩

/-- The absent section is warned about at strictness 2, but not at strictness 0. -/
theorem evaluate_of_stricter_importing :
    ∃ lax strict state,
      ofDocument importing .standard { level := 0 } = .ok lax ∧
      ofDocument importing .standard { level := 2 } = .ok strict ∧
      Registry.standard.PassesOn ∧ Registry.standard.Only (· ≠ .settings) ∧
      (evaluate "A" strict).result = .ok state ∧ (evaluate "A" lax).result = .ok state ∧
      (evaluate "A" lax).state.cache = (evaluate "A" strict).state.cache ∧
      (evaluate "A" lax).state.trace.Softens (evaluate "A" strict).state.trace ∧
      (evaluate "A" lax).state.trace ≠ (evaluate "A" strict).state.trace := by
  have hpass := Registry.passesOn_standard
  have honly : Registry.standard.Only (· ≠ .settings) := by
    apply Registry.only_standard <;> simp
  have hlax : ofDocument importing .standard { level := 0 } = .ok _ := rfl
  have hstrict : ofDocument importing .standard { level := 2 } = .ok _ := rfl
  obtain ⟨hresult, hcache, htrace⟩ := evaluate_of_stricter hlax hstrict (by decide) hpass honly
    (show (evaluate "A" _).result = .ok _ from rfl)
  exact ⟨_, _, _, hlax, hstrict, hpass, honly, rfl, hresult, hcache, htrace, by decide⟩

end Engine

end IniCompose
