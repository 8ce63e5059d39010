import IniCompose.Proofs.Engine.History
import IniCompose.Proofs.Evaluation.Demands

/-!
# The cache of an engine that is left alone

Between two operations that forget the cache, whatever is evaluated, looked up or written, a section
is kept exactly if it exists and has been evaluated to a state, and it is evaluated to one only
once: from then on it is answered with the kept state, also where handlers request it.
-/
namespace IniCompose

namespace Setup

variable {setup : Setup} {s : Session} {name : String}

/-- A section that exists is cached when it is answered with a state. -/
theorem get?_of_result_visit {budget : Nat} {state : SectionState}
    (hok : (setup.visit (setup.evaluateWithin budget) name s).result = .ok state)
    (hexists : setup.document.hasSection name) :
    (setup.visit (setup.evaluateWithin budget) name s).state.cache.get? name = some state := by
  cases hcache : s.cache.get? name with
  | none => exact (get?_visit_iff hcache).2 ⟨hok, hexists⟩
  | some cached =>
    rw [visit_of_cached setup hcache] at hok ⊢
    rw [hcache, Except.ok.inj hok]

/-- A section that exists is completed by a run that succeeds. -/
theorem contains_evaluateEach {names : List String}
    (hok : (setup.evaluateEach names s).result = .ok ()) (hmem : name ∈ names)
    (hexists : setup.document.hasSection name) :
    (setup.evaluateEach names s).state.cache.contains name := by
  induction names generalizing s with
  | nil => cases hmem
  | cons first rest ih =>
    rw [evaluateEach_cons] at hok ⊢
    dsimp only at hok ⊢
    cases hresult : (setup.evaluate first s).result with
    | error fault => simp [hresult] at hok
    | ok state =>
      simp only [hresult, Outcome.result_after, Outcome.state_after] at hok ⊢
      obtain rfl | hrest := List.mem_cons.1 hmem
      · have hkept := (setup.kept_grows.evaluateEach rest (setup.evaluate name s).state).cache
        exact Option.isSome_of_eq_some (hkept (get?_of_result_visit hresult hexists))
      · exact ih hok hrest

end Setup

namespace Engine

open Journaled

/-! ## Operations that do not forget the cache -/

/-- What an operation reports. -/
def Operation.journal (engine : Engine) : Operation → Journal
  | evaluate name => (Engine.evaluate name engine).journal
  | evaluateAll => (Engine.evaluateAll engine).journal
  | hasOption name key => (Engine.hasOption name key engine).journal
  | value? name key => (Engine.value? name key engine).journal
  | valueD name key default => (Engine.valueD name key default engine).journal
  | keys name => (Engine.keys name engine).journal
  | items name => (Engine.items name engine).journal
  | collapse => (Engine.collapse engine).journal
  | write destination start => (Engine.write destination (engine, start)).journal
  | loadPaths files paths => (Engine.loadPaths files paths engine).journal
  | invalidate | setDocument _ | setSettings _ => []

/-- The operation makes the engine forget its cache. -/
def Operation.Forgets (engine : Engine) : Operation → Prop
  | invalidate | setDocument _ => True
  | loadPaths files paths => (Engine.loadPaths files paths engine).result = .ok ()
  | setSettings settings => ∃ changed, engine.setSettings settings = .ok changed
  | _ => False

/-- Operations that do not make an engine forget its cache lead to another engine, with what all of
them report. -/
inductive Leads (start : Engine) : Journal → Engine → Prop
  | refl : Leads start [] start
  | step {journal engine} (operation : Operation) :
    Leads start journal engine → ¬ operation.Forgets engine →
    Leads start (journal ++ operation.journal engine) (operation.run engine)

/-- The engine has changed in nothing but its trace and the sections it has completed. -/
structure Adds (engine : Engine) (journal : Journal) (after : Engine) : Prop where
  toSetup_eq : after.toSetup = engine.toSetup
  caches : engine.toSetup.Caches engine.cache journal after.cache

variable {start engine middle after later : Engine} {journal told : Journal} {name : String}

theorem Adds.refl (engine : Engine) : engine.Adds [] engine := ⟨rfl, .refl _ _⟩

theorem Adds.trans (h : engine.Adds journal middle) (h' : middle.Adds told after) :
    engine.Adds (journal ++ told) after := by
  refine ⟨h'.toSetup_eq.trans h.toSetup_eq, h.caches.trans ?_⟩
  have hcaches := h'.caches
  rwa [h.toSetup_eq] at hcaches

theorem adds_evaluate (name : String) (engine : Engine) :
    engine.Adds (evaluate name engine).journal (evaluate name engine).state := by
  refine ⟨toSetup_evaluate name engine, ?_⟩
  cases hcache : engine.cache.get? name with
  | some state =>
    rw [evaluate_of_cached hcache]
    exact .refl _ _
  | none =>
    rw [evaluate_of_uncached hcache]
    exact Setup.caches_evaluateWithin _ name { cache := engine.cache }

theorem adds_evaluateAll (engine : Engine) :
    engine.Adds (evaluateAll engine).journal (evaluateAll engine).state :=
  ⟨rfl, (engine.bracketed_caches.evaluateEach engine.document.names { cache := engine.cache }).2⟩

theorem journal_bind_pure {σ ε α β : Type} (x : Journaled σ ε α) (f : α → β) (s : σ) :
    ((x >>= fun a => Pure.pure (f a)) s).journal = (x s).journal := by
  rw [bind_apply]
  cases (x s).result with
  | ok a => exact List.append_nil _
  | error e => rfl

theorem adds_value? (name key : String) (engine : Engine) :
    engine.Adds (value? name key engine).journal (value? name key engine).state := by
  rw [value?, state_bind_pure, journal_bind_pure]
  exact adds_evaluate name engine

theorem adds_hasOption (name key : String) (engine : Engine) :
    engine.Adds (hasOption name key engine).journal (hasOption name key engine).state := by
  rw [hasOption, bind_apply, get_apply]
  dsimp only [Outcome.after, List.nil_append]
  split
  · rw [state_bind_pure, journal_bind_pure]
    exact adds_evaluate name engine
  · exact .refl engine

/-- Induction on the sections to be written. -/
theorem adds_writeSections {σ : Type} (destination : Destination σ) (separator : String)
    (names : List String) (engine : Engine) (written : σ) :
    engine.Adds (writeSections destination separator names (engine, written)).journal
      (writeSections destination separator names (engine, written)).state.1 := by
  induction names generalizing separator engine written with
  | nil => exact .refl engine
  | cons name rest ih =>
    have hevaluated := adds_evaluate name engine
    rw [writeSections_cons]
    dsimp only
    split
    · exact hevaluated
    · split
      · exact hevaluated
      · exact hevaluated.trans (ih _ _ _)

theorem adds_write {σ : Type} (destination : Destination σ) (engine : Engine) (written : σ) :
    engine.Adds (write destination (engine, written)).journal
      (write destination (engine, written)).state.1 := by
  rw [write_apply]
  exact adds_writeSections destination "" engine.document.names engine written

/-- Loading documents tells of nothing but the files. -/
theorem mem_journal_loadInto {σ : Type} (files : Files) (document : Document) (paths : List String)
    (s : σ) : ∀ event ∈ (Document.loadInto files document paths s).journal,
      ∃ verbosity text, event = .message verbosity text := by
  induction paths generalizing document with
  | nil => exact List.forall_mem_nil _
  | cons path rest ih =>
    simp only [Document.loadInto, bind_apply, ofExcept_apply, tell_apply]
    cases Document.load files path with
    | error fault => exact List.forall_mem_nil _
    | ok loaded => exact List.forall_mem_cons.2 ⟨⟨_, _, rfl⟩, ih _⟩

theorem adds_loadPaths {files : Files} {paths : List String}
    (h : (loadPaths files paths engine).result ≠ .ok ()) :
    engine.Adds (loadPaths files paths engine).journal (loadPaths files paths engine).state := by
  have htold := mem_journal_loadInto files ∅ paths engine
  rw [loadPaths_apply] at h ⊢
  dsimp only at h ⊢
  split at h
  · exact absurd rfl h
  · refine ⟨rfl, .of_quiet fun entry hentry => ?_⟩
    obtain ⟨verbosity, text, heq⟩ := htold _ hentry
    cases heq

/-- Every operation that does not forget the cache adds to it what it tells. -/
theorem adds_run (operation : Operation) (h : ¬ operation.Forgets engine) :
    engine.Adds (operation.journal engine) (operation.run engine) := by
  cases operation with
  | evaluate name => exact adds_evaluate name engine
  | evaluateAll => exact adds_evaluateAll engine
  | hasOption name key => exact adds_hasOption name key engine
  | value? name key => exact adds_value? name key engine
  | valueD name key default =>
    rw [Operation.journal, Operation.run, valueD, state_bind_pure, journal_bind_pure]
    exact adds_value? name key engine
  | keys name =>
    rw [Operation.journal, Operation.run, keys, state_bind_pure, journal_bind_pure]
    exact adds_evaluate name engine
  | items name =>
    rw [Operation.journal, Operation.run, items, state_bind_pure, journal_bind_pure]
    exact adds_evaluate name engine
  | collapse => exact adds_write Destination.text engine ""
  | write destination start => exact adds_write destination engine start
  | loadPaths files paths => exact adds_loadPaths h
  | setSettings settings =>
    rw [Operation.run]
    split
    · next changed hchanged => exact absurd ⟨changed, hchanged⟩ h
    · exact .refl engine
  | invalidate | setDocument _ => exact absurd trivial h

theorem Leads.adds (h : start.Leads journal engine) : start.Adds journal engine := by
  induction h with
  | refl => exact .refl start
  | step operation _ hkeeps ih => exact ih.trans (adds_run operation hkeeps)

/-! ## What is kept -/

/-- From a moment of a run on, the section is cached with the state and requests for it are answered
with that, without a change of the session. -/
structure Settled (engine : Engine) (names : List String) (after : Engine) (told : Journal)
    (name : String) (state : SectionState) : Prop where
  cached : ∀ demand, engine.toSetup.Demands names { cache := engine.cache } demand →
    told <+: demand.heard → demand.session.cache.get? name = some state
  answered : ∀ demand, engine.toSetup.Demands names { cache := engine.cache } demand →
    told <+: demand.heard → demand.target = name →
      (demand.answer engine.toSetup).result = .ok state ∧
        (demand.answer engine.toSetup).state = demand.session
  kept : after.cache.get? name = some state

variable {names : List String} {state : SectionState}

theorem settled_of_cached (hrun : engine.RunsTo names after)
    (hcached : ∀ demand, engine.toSetup.Demands names { cache := engine.cache } demand →
      told <+: demand.heard → demand.session.cache.get? name = some state)
    (hend : (engine.toSetup.evaluateEach names { cache := engine.cache }).state.cache.get? name =
      some state) : engine.Settled names after told name state where
  cached := hcached
  answered demand hdemand hbegins htarget :=
    hdemand.answer_of_cached rfl (htarget ▸ hcached demand hdemand hbegins)
  kept := by rw [hrun.state_eq.2.1, hend]

/-- What is kept before a run is settled all through it. -/
theorem settled_of_kept (hrun : engine.RunsTo names after)
    (hkept : engine.cache.get? name = some state) : engine.Settled names after [] name state := by
  refine settled_of_cached hrun (fun demand hdemand _ => hdemand.caches.keeps hkept) ?_
  exact (engine.kept_grows.evaluateEach names { cache := engine.cache }).keeps hkept

/-- What a request leaves in the cache is settled from then on. -/
theorem settled_of_demand (hrun : engine.RunsTo names after) {first : Demand}
    (hfirst : engine.toSetup.Demands names { cache := engine.cache } first)
    (hcached : (first.answer engine.toSetup).state.cache.get? name = some state) :
    engine.Settled names after (first.told engine.toSetup) name state :=
  settled_of_cached hrun (fun _ hsecond hbegins => hfirst.get?_mono hsecond hbegins hcached)
    (hfirst.keeps hcached)

theorem get?_evaluate_iff
    (hexist : ∀ {name}, engine.cache.contains name → engine.document.hasSection name) :
    (evaluate name engine).state.cache.get? name = some state ↔
      (evaluate name engine).result = .ok state ∧ engine.hasSection name := by
  cases hcache : engine.cache.get? name with
  | some cached =>
    have hexists : engine.hasSection name := hexist (Option.isSome_of_eq_some hcache)
    simp [evaluate_of_cached hcache, hcache, hexists]
  | none =>
    rw [evaluate_of_uncached hcache]
    exact Setup.get?_visit_iff (s := { cache := engine.cache }) hcache

/-- Between two operations that forget the cache: a section is kept after its evaluation exactly if
it exists and the evaluation has given a state; a kept section stays kept with its state, with which
every later request for it is answered; an existing section is left with a state at most once; and
when all sections have been evaluated all are kept. -/
theorem cache_write_once (hstart : start.cache = ∅) (h : start.Leads journal engine) :
    (∀ name state, (evaluate name engine).state.cache.get? name = some state ↔
      (evaluate name engine).result = .ok state ∧ engine.hasSection name) ∧
    (∀ name state, engine.cache.get? name = some state →
      ∀ told later, engine.Leads told later →
        later.cache.get? name = some state ∧ (evaluate name later).result = .ok state ∧
        ∀ names after, later.RunsTo names after → later.Settled names after [] name state) ∧
    (∀ names after, engine.RunsTo names after → ∀ demand,
      engine.toSetup.Demands names { cache := engine.cache } demand → ∀ name state,
        (demand.answer engine.toSetup).state.cache.get? name = some state →
        engine.Settled names after (demand.told engine.toSetup) name state) ∧
    (∀ name, engine.hasSection name → journal.exits name ≤ 1) ∧
    ((evaluateAll engine).result = .ok () →
      ∀ name, engine.hasSection name → (evaluateAll engine).state.isCached name) := by
  obtain ⟨hsetup, hcaches⟩ := h.adds
  rw [hstart, ← hsetup] at hcaches
  have hexist {name : String} (hcached : engine.cache.contains name) :
      engine.document.hasSection name := by
    obtain hempty | hexists := hcaches.exist hcached
    · simp at hempty
    · exact hexists
  refine ⟨fun name state => get?_evaluate_iff hexist, ?_, ?_, ?_, ?_⟩
  · intro name state hkept told later hlater
    have hlast : later.cache.get? name = some state := hlater.adds.caches.keeps hkept
    refine ⟨hlast, ?_, fun names after hrun => settled_of_kept hrun hlast⟩
    rw [evaluate_of_cached hlast]
  · intro names after hrun demand hdemand name state hcached
    exact settled_of_demand hrun hdemand hcached
  · intro name hexists
    have hexits := hcaches.exits hexists
    have hle := Bool.toNat_le (engine.cache.contains name)
    omega
  · intro hok name hexists
    exact Setup.contains_evaluateEach hok (OrderedMap.contains_iff_mem_keys.1 hexists) hexists

/-- A section that requests another one twice and itself in between, and goes on after every fault.
-/
def insisting : Engine :=
  .ordinary
    ⟨.ofList [("A", .ofList [("try B", ""), ("try A", ""), ("try  B", "")]),
      ("B", .ofList [("k", "v")])]⟩
    (Registry.standard.register "try" fun site => do
      let _ ← Program.evaluate site.key.parameter)

/-- The requested section is completed once, and its state is what both its requests and all later
evaluations give. -/
theorem cache_write_once_insisting :
    insisting.cache = ∅ ∧
    ∃ journal engine, insisting.Leads journal engine ∧ engine.cachedNames = ["A", "B"] ∧
      journal.exits "A" ≤ 1 ∧ journal.exits "B" ≤ 1 ∧
      ∃ state, engine.cache.get? "B" = some state ∧ (evaluate "B" engine).result = .ok state ∧
        ∃ demand, insisting.toSetup.Demands ["A"] {} demand ∧ demand.target = "B" ∧
          insisting.Settled ["A"] engine (demand.told insisting.toSetup) "B" state := by
  have hleads : insisting.Leads _ (evaluate "A" insisting).state := .step (.evaluate "A") .refl id
  obtain ⟨-, hkept, -, honce, -⟩ := cache_write_once rfl hleads
  obtain ⟨-, -, hdemands, -, -⟩ := cache_write_once rfl (.refl : insisting.Leads [] insisting)
  have hstate : (evaluate "A" insisting).state.cache.get? "B" = some ⟨.ofList [("k", "v")], []⟩ :=
    rfl
  have hentries : (OrderedMap.ofList [("try B", ""), ("try A", ""), ("try  B", "")]).entries =
      [] ++ ("try B", "") :: [("try A", ""), ("try  B", "")] := rfl
  have hnames : ["A"] = [] ++ "A" :: [] := rfl
  have hdemand : insisting.toSetup.Demands ["A"] {} _ :=
    .asked (.own hnames rfl) (.own rfl rfl rfl hentries rfl rfl rfl) .now
  refine ⟨rfl, _, _, hleads, rfl, honce "A" rfl, honce "B" rfl, _, hstate,
    (hkept "B" _ hstate _ _ .refl).2.1, _, hdemand, rfl, ?_⟩
  exact hdemands ["A"] _ (.evaluate rfl) _ hdemand "B" _ rfl

end Engine

end IniCompose
