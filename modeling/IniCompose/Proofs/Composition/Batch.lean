import IniCompose.Proofs.Composition.Inlining

/-!
# Evaluating every section in one run

All sections of a run share the cache and the remembered fault. Under a composing registry neither
makes a difference: every section gives what it gives in a run of its own on a new engine, and the
run ends at the first section that fails there.
-/
namespace IniCompose

namespace Setup

variable {setup : Setup} {s s' : Session} {name : String}

/-! ## One section -/

section

variable (hcomposes : setup.registry.Composes)

include hcomposes

/-- A cached state is what its section gives in a session of its own with nothing cached. -/
theorem SoundCache.result_evaluate {cache : OrderedMap SectionState} (h : setup.SoundCache cache)
    {state : SectionState} (hstate : cache.get? name = some state) :
    (setup.evaluate name {}).result = .ok state := by
  have hcached : (setup.evaluate name { cache }).result = .ok state :=
    congrArg Outcome.result (visit_of_cached setup hstate (setup.evaluateWithin _))
  exact (result_evaluate_of_ready hcomposes h.ready rfl name).symm.trans hcached

/-! ## One section after the other -/

/-- Induction on the sections: the ones before the first that fails are cached. -/
theorem evaluateEach_cases {names : List String} (h : setup.Ready (setup.document.size + 1) s)
    (hactive : s.active = ∅) (hexist : ∀ name ∈ names, setup.document.hasSection name) :
    ((setup.evaluateEach names s).result = .ok () ∧
      ∀ name ∈ names, (setup.evaluateEach names s).state.cache.contains name) ∨
    ∃ before name rest fault, names = before ++ name :: rest ∧
      (setup.evaluateEach names s).result = .error fault ∧
      (setup.evaluate name {}).result = .error fault ∧
      ∀ earlier ∈ before, (setup.evaluateEach names s).state.cache.contains earlier := by
  induction names generalizing s with
  | nil => exact .inl ⟨rfl, List.forall_mem_nil _⟩
  | cons name rest ih =>
    have hfollows := follows_evaluateWithin hcomposes (setup.document.size + 1)
    have hsection : setup.Evaluates [.imports name] s ∅ (setup.evaluate name s) :=
      hfollows.evaluates name s h
    have hgrows : Grows s (setup.evaluate name s).state := hfollows.grows name s
    have hfresh := result_evaluate_of_ready hcomposes h hactive name
    rw [evaluateEach_cons]
    dsimp only
    cases hresult : (setup.evaluate name s).result with
    | error fault =>
      exact .inr ⟨[], name, rest, fault, rfl, rfl, hfresh ▸ hresult, List.forall_mem_nil _⟩
    | ok state =>
      have hcached := hsection.caches hresult List.mem_cons_self (hexist name List.mem_cons_self)
      have hkept := (setup.kept_grows.evaluateEach rest (setup.evaluate name s).state).contains
        hcached
      rcases ih (h.of_grows hgrows hsection.sound) (hgrows.active.trans hactive)
          (fun other hother => hexist other (List.mem_cons_of_mem _ hother)) with
        ⟨hok, hall⟩ | ⟨before, failing, after, fault, rfl, herror, halone, hall⟩
      · exact .inl ⟨hok, List.forall_mem_cons.2 ⟨hkept, hall⟩⟩
      · exact .inr ⟨name :: before, failing, after, fault, rfl, herror, halone,
          List.forall_mem_cons.2 ⟨hkept, hall⟩⟩

end

end Setup

namespace Engine

variable {registry : Registry} {engine : Engine}

/-- Whatever the history of the engine, evaluating every section succeeds exactly if every section
evaluates to a state on a new engine, and then it is kept with that state. Otherwise the fault is
that of the first section in file order that fails on a new engine, and the sections before it are
kept with the states that they have there. -/
theorem evaluateAll_eq_fresh (hcomposes : registry.Composes) (hreached : Reached registry engine) :
    ∃ fresh, ofDocument engine.document registry engine.settings = .ok fresh ∧
      ((evaluateAll engine).result = .ok () ↔
        ∀ name ∈ engine.document.names, ∃ state, (evaluate name fresh).result = .ok state) ∧
      ((evaluateAll engine).result = .ok () → ∀ name ∈ engine.document.names,
        ∃ state, (evaluate name fresh).result = .ok state ∧
          (evaluateAll engine).state.cache.get? name = some state) ∧
      ∀ fault, (evaluateAll engine).result = .error fault →
        ∃ before name rest, engine.document.names = before ++ name :: rest ∧
          (evaluate name fresh).result = .error fault ∧
          ∀ earlier ∈ before, ∃ state, (evaluate earlier fresh).result = .ok state ∧
            (evaluateAll engine).state.cache.get? earlier = some state := by
  obtain ⟨hregistry, hsound⟩ := hreached.soundCache hcomposes
  obtain ⟨-, hsound'⟩ := (hreached.step .evaluateAll).soundCache hcomposes
  change engine.SoundCache (evaluateAll engine).state.cache at hsound'
  subst hregistry
  refine ⟨_, ofDocument_self engine, ?_⟩
  generalize hfresh : ({ engine with cache := ∅, trace := [] } : Engine) = fresh
  have hresult (name : String) :
      (evaluate name fresh).result = (engine.toSetup.evaluate name {}).result := by
    subst hfresh
    exact result_evaluate name _
  have hkept {name : String} (hname : (evaluateAll engine).state.cache.contains name) :
      ∃ state, (evaluate name fresh).result = .ok state ∧
        (evaluateAll engine).state.cache.get? name = some state := by
    obtain ⟨state, hstate⟩ := Option.isSome_iff_exists.1 hname
    exact ⟨state, (hresult name).trans (hsound'.result_evaluate hcomposes hstate), hstate⟩
  have hexist : ∀ name ∈ engine.document.names, engine.document.hasSection name :=
    fun name => OrderedMap.contains_iff_mem_keys.2
  rcases Setup.evaluateEach_cases hcomposes hsound.ready rfl hexist with
    ⟨hok, hall⟩ | ⟨before, name, rest, fault, hnames, herror, halone, hall⟩
  · change (evaluateAll engine).result = .ok () at hok
    refine ⟨⟨fun _ name hname => ?_, fun _ => hok⟩, fun _ name hname => hkept (hall name hname), ?_⟩
    · obtain ⟨state, hstate, -⟩ := hkept (hall name hname)
      exact ⟨state, hstate⟩
    · intro fault herror
      cases hok.symm.trans herror
  · change (evaluateAll engine).result = .error fault at herror
    refine ⟨⟨fun hok => ?_, fun hfine => ?_⟩, fun hok => ?_, ?_⟩
    · cases hok.symm.trans herror
    · obtain ⟨state, hstate⟩ := hfine name (hnames ▸ by simp)
      cases hstate.symm.trans ((hresult name).trans halone)
    · cases hok.symm.trans herror
    · intro other hother
      cases herror.symm.trans hother
      exact ⟨before, name, rest, hnames, (hresult name).trans halone,
        fun earlier hearlier => hkept (hall earlier hearlier)⟩

/-- The handler of `use` under a second name, and twice under a third. -/
def aliased : Registry :=
  ((Registry.standard.register "import" importSection).register "load" importSection).register
    "load" importSection

theorem composes_aliased : aliased.Composes := by
  refine ⟨rfl, fun entry hentry handler hhandler => .inl ?_⟩
  have hentries : aliased.handlers.entries = [("use", [importSection]),
      ("import", [importSection]), ("load", [importSection, importSection])] := rfl
  rw [hentries] at hentry
  rcases hentry with _ | ⟨_, _ | ⟨_, _ | ⟨_, ⟨⟩⟩⟩⟩ <;> simpa using hhandler

/-- Two sections that use each other, between one that imports another and one with an ambiguous
operation. -/
def crossing : Document :=
  ⟨.ofList [("A", .ofList [("x", "1"), ("import B", "")]), ("B", .ofList [("y", "2")]),
    ("C", .ofList [("import D", "")]), ("D", .ofList [("use C", "")]),
    ("E", .ofList [("load A", "")])]⟩

/-- The run ends at the first section on the cycle, though the engine has met the cycle before from
the other one. -/
theorem evaluateAll_eq_fresh_crossing :
    ∃ engine fresh, ofDocument crossing aliased {} = .ok engine ∧
      Reached aliased (Operation.run engine (.evaluate "D")) ∧
      ofDocument (Operation.run engine (.evaluate "D")).document aliased
        (Operation.run engine (.evaluate "D")).settings = .ok fresh ∧
      (evaluateAll (Operation.run engine (.evaluate "D"))).result =
        .error (.circularReference "C" ["C", "D", "C"]) ∧
      ∃ before name rest,
        (Operation.run engine (.evaluate "D")).document.names = before ++ name :: rest ∧
        (evaluate name fresh).result = .error (.circularReference "C" ["C", "D", "C"]) ∧
        ∀ earlier ∈ before, ∃ state, (evaluate earlier fresh).result = .ok state ∧
          (evaluateAll (Operation.run engine (.evaluate "D"))).state.cache.get? earlier =
            some state := by
  obtain ⟨engine, hengine, hresult⟩ : ∃ engine, ofDocument crossing aliased {} = .ok engine ∧
      (evaluateAll (Operation.run engine (.evaluate "D"))).result =
        .error (.circularReference "C" ["C", "D", "C"]) := ⟨_, rfl, by rfl⟩
  have hreached := (Reached.start hengine).step (.evaluate "D")
  obtain ⟨fresh, hfresh, -, -, hfault⟩ := evaluateAll_eq_fresh composes_aliased hreached
  exact ⟨engine, fresh, hengine, hreached, hfresh, hresult, hfault _ hresult⟩

end Engine

end IniCompose
