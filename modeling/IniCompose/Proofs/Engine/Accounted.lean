import IniCompose.Engine.View
import IniCompose.Proofs.Engine.Steps
import IniCompose.Proofs.Evaluation.Accounting

/-!
# Every option is accounted for

The trace of a run has every section that the run completes from its entry to its exit, and between
them one part for each of its options, in file order.
-/
namespace IniCompose

/-- A section that is cached since a run is left in what the engine recorded of the run. -/
theorem Setup.exists_leaves_of_cached {setup : Setup} {names : List String} {s : Session}
    {name : String}
    (hnone : s.cache.get? name = none)
    (hcached : (setup.evaluateEach names s).state.cache.contains name) :
    setup.document.hasSection name ∧
      ∃ exit ∈ (setup.evaluateEach names s).journal.engineTrace, exit.Leaves name := by
  have hcaches := (setup.bracketed_caches.evaluateEach names s).2
  have hbefore : s.cache.contains name = false := by simp [OrderedMap.contains, hnone]
  have hexists : setup.document.hasSection name := by
    obtain hearlier | hexists := hcaches.exist hcached
    · simp [hbefore] at hearlier
    · exact hexists
  have hexits := hcaches.exits hexists
  rw [hbefore, hcached] at hexits
  have hpos : 0 < (setup.evaluateEach names s).journal.exits name := by
    simp only [Bool.toNat_true, Bool.toNat_false] at hexits
    omega
  obtain ⟨exit, hmem, hleaves⟩ := List.countP_pos_iff.1 hpos
  exact ⟨hexists, exit, hmem, of_decide_eq_true hleaves⟩

namespace Engine

variable {engine after : Engine} {names : List String}

/-- Where handlers put no entries on the record themselves: every section that is kept since a run
has its exit in the trace of the run; and wherever the trace tells that an existing section is left,
the section is kept with a state of as many keys as the exit tells, and between the entry and the
exit of the section the trace is made up of what its options add, one after the other in file order.
-/
theorem options_accounted_for (hunrecorded : engine.registry.Only Request.Unrecorded)
    (h : engine.RunsTo names after) :
    (∀ name state, engine.cache.get? name = none → after.cache.get? name = some state →
      ∃ earlier exit later, after.trace = earlier ++ exit :: later ∧
        engine.toSetup.Spans name state earlier exit) ∧
    ∀ earlier exit later name, after.trace = earlier ++ exit :: later → exit.Leaves name →
      engine.hasSection name →
        ∃ state, after.cache.get? name = some state ∧
          engine.toSetup.Spans name state earlier exit := by
  obtain ⟨-, hcache, htrace⟩ := h.state_eq
  have haccounts :=
    (engine.toSetup.bracketed_accounts.evaluateEach names { cache := engine.cache }).2
  rw [← Setup.engineTrace_eq_trace (Setup.reports_evaluateEach hunrecorded names _)] at htrace
  rw [hcache, htrace]
  refine ⟨fun name state hnone hkept => ?_, haccounts⟩
  obtain ⟨hexists, exit, hmem, hleaves⟩ := Setup.exists_leaves_of_cached
    (s := { cache := engine.cache }) hnone (Option.isSome_of_eq_some hkept)
  obtain ⟨earlier, later, hsplit⟩ := List.append_of_mem hmem
  obtain ⟨state', hkept', hspans⟩ := haccounts earlier exit later name hsplit hleaves hexists
  obtain rfl := Option.some.inj (hkept.symm.trans hkept')
  exact ⟨earlier, exit, later, hsplit, hspans⟩

/-- A section with an option that is assigned, one that is handled, one whose handler fails and one
that is malformed. No strictness raises less. -/
def motley : Engine :=
  .lenient
    ⟨.ofList
      [("A", .ofList [("k", "v"), ("use B", ""), ("boom x", ""), ("use \"C", "")]),
        ("B", .ofList [("l", "w")])]⟩
    (Registry.standard.register "boom" fun _ => .fail (.text "refused"))

/-- The section is completed, with the one it imports in its span. -/
theorem options_accounted_for_motley :
    motley.registry.Only Request.Unrecorded ∧ ∃ after, motley.RunsTo ["A"] after ∧
      after.cachedNames = ["A", "B"] ∧ ∃ state earlier exit later,
        after.cache.get? "A" = some state ∧ after.trace = earlier ++ exit :: later ∧
        motley.toSetup.Spans "A" state earlier exit := by
  have hunrecorded : motley.registry.Only Request.Unrecorded :=
    Registry.only_register_standard (by decide) unrecorded_standard fun _ => trivial
  have hrun : motley.RunsTo ["A"] _ := .evaluate rfl
  obtain ⟨hspans, -⟩ := options_accounted_for hunrecorded hrun
  obtain ⟨earlier, exit, later, htrace, hspan⟩ := hspans "A" _ rfl rfl
  exact ⟨hunrecorded, _, hrun, rfl, _, earlier, exit, later, rfl, htrace, hspan⟩

end Engine

end IniCompose
