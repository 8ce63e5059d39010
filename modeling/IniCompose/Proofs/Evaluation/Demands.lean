import IniCompose.Proofs.Evaluation.Completed
import IniCompose.Proofs.Evaluation.Nesting

/-!
# Requested sections

A run requests sections by itself, one after the other, and on the way its handlers request others.
What the engine has reported tells which of two requests comes first. Whatever one request leaves in
the cache stands there for all later ones, and a request for it is answered with it.
-/
namespace IniCompose

/-- Every entry of a map is in another one. -/
def OrderedMap.Keeps {α : Type} (m n : OrderedMap α) : Prop :=
  ∀ ⦃key value⦄, m.get? key = some value → n.get? key = some value

theorem OrderedMap.Keeps.trans {α : Type} {m n o : OrderedMap α} (h : m.Keeps n)
    (h' : n.Keeps o) : m.Keeps o :=
  fun _ _ hentry => h' (h hentry)

/-- A section that is requested, and where the run stands when the request is made. -/
structure Demand where
  /-- How deep requests for the section may still nest. -/
  budget : Nat
  target : String
  session : Session
  /-- What has been reported since the run began. -/
  heard : Journal

namespace Demand

def answer (demand : Demand) (setup : Setup) : Outcome Session Fault SectionState :=
  setup.evaluateWithin demand.budget demand.target demand.session

/-- What has been reported when the request is answered. -/
def told (demand : Demand) (setup : Setup) : Journal :=
  demand.heard ++ (demand.answer setup).journal

end Demand

namespace Setup

/-- A run over some sections requests a section, by itself or by a handler that it calls. -/
inductive Demands (setup : Setup) (names : List String) (s : Session) : Demand → Prop
  | own {before name rest t told} :
    names = before ++ name :: rest → setup.evaluateEach before s = ⟨.ok (), t, told⟩ →
    Demands setup names s
      { budget := setup.document.size + 1, target := name, session := t, heard := told }
  | asked {demand call target t told} :
    Demands setup names s demand →
    setup.Calls demand.budget demand.target demand.session demand.heard call →
    setup.Asks (setup.evaluateWithin call.budget) (call.handler call.site)
      (call.session, call.state) target t told →
    Demands setup names s
      { budget := call.budget, target, session := t, heard := call.heard ++ call.start :: told }

variable {setup : Setup} {start : OrderedMap SectionState}

theorem Grows.cache {s t : Session} (h : Grows s t) : s.cache.Keeps t.cache :=
  fun _ _ => h.keeps

/-! ## Up to a request -/

section

variable {budget : Nat} {name target : String} {heard told : Journal} {call : Call}

theorem Asks.caches {program : Program Unit} {s : Session × SectionState} {t : Session}
    (h : setup.Asks (setup.evaluateWithin budget) program s target t told) :
    setup.Caches s.1.cache told t.cache := by
  induction h with
  | @now _ _ s => exact .refl setup s.1.cache
  | @later request _ s _ _ _ _ _ _ hanswer _ ih =>
    have hkept := setup.bracketed_caches.answer (setup.bracketed_caches.evaluateWithin budget)
      request s
    rw [hanswer] at hkept
    exact hkept.2.trans ih

theorem caches_start (call : Call) (cache : OrderedMap SectionState) :
    setup.Caches cache [call.start] cache :=
  .tell (by simp [OptionSite.startEntry])

/-- When a handler is called, the cache is what the run's journal tells. -/
theorem Calls.caches {s : Session} (h : setup.Calls budget name s heard call)
    (hs : setup.Caches start heard s.cache) :
    setup.Caches start call.heard call.session.cache := by
  induction h with
  | @own budget name s heard active options before _ _ _ t told _ _ hcache hpush _ _ hbefore =>
    have hoptions := setup.bracketed_caches.evalOptions
      (setup.bracketed_caches.evaluateWithin budget) name before ∅ { s with active }
    rw [hbefore] at hoptions
    exact (hs.trans (setup.caches_opening name active.depth s.cache)).trans hoptions.2
  | @inner _ _ _ _ call _ _ _ _ _ hasks _ ih ihdeeper =>
    exact ihdeeper ((ih hs).trans ((caches_start call call.session.cache).trans hasks.caches))

/-! ## From its answer on -/

/-- What an answer leaves in the cache is there when the handler that asked for it ends. -/
theorem Asks.keeps {program : Program Unit} {s : Session × SectionState} {t : Session}
    (h : setup.Asks (setup.evaluateWithin budget) program s target t told) :
    (setup.evaluateWithin budget target t).state.cache.Keeps
      (setup.run (setup.evaluateWithin budget) program s).state.1.cache := by
  induction h with
  | @now target next s =>
    have hrest := setup.bracketed_grows.run (setup.grows_evaluateWithin budget)
      (next (setup.evaluateWithin budget target s.1).result)
      ((setup.evaluateWithin budget target s.1).state, s.2)
    exact hrest.cache
  | later hanswer _ ih =>
    rw [run_ask, Journaled.bind_apply, hanswer]
    exact ih

theorem evalOptions_append (nested : Evaluator) (sectionName : String)
    (first second : List (String × String)) (state : SectionState) :
    setup.evalOptions nested sectionName (first ++ second) state =
      setup.evalOptions nested sectionName first state >>=
        setup.evalOptions nested sectionName second := by
  induction first generalizing state with
  | nil => exact (Journaled.pure_bind state _).symm
  | cons option rest ih =>
    rw [List.cons_append, evalOptions, evalOptions, Journaled.bind_assoc]
    exact congrArg _ (funext ih)

/-- What is in the cache when a handler ends is there when its option has been dealt with. -/
theorem keeps_dispatch (setup : Setup) (nested : Evaluator) (handler : Handler) (site : OptionSite)
    (state : SectionState) (s : Session) :
    (setup.run nested (handler site) (s, state)).state.1.cache.Keeps
      (setup.dispatch nested handler site state s).state.cache := by
  rw [dispatch_apply]
  dsimp only
  split
  · exact fun _ _ => id
  · exact (setup.bracketed_grows.settle site _ _).cache

/-- What is in the cache when the body of a section ends is there when the section is left. -/
theorem keeps_visit {s : Session} {active : ActiveSections} (hcache : s.cache.get? name = none)
    (hpush : s.active.push name = .ok active) :
    (setup.evalBody (setup.evaluateWithin budget) name { s with active }).state.cache.Keeps
      (setup.visit (setup.evaluateWithin budget) name s).state.cache := by
  have hspared := setup.get?_evalBody budget hcache hpush
  rw [visit_of_entered setup hcache hpush]
  generalize setup.evalBody (setup.evaluateWithin budget) name { s with active } = body
    at hspared ⊢
  obtain ⟨_ | state?, t, journal⟩ := body
  · exact fun _ _ => id
  · intro other state hstate
    have hne : other ≠ name := by rintro rfl; simp [hspared] at hstate
    rwa [get?_leave_of_ne hne]

/-- What is in the cache when a handler ends is there when the section has been evaluated that it
was called in. -/
theorem Calls.keeps {s : Session} (h : setup.Calls budget name s heard call) :
    (call.work setup).state.1.cache.Keeps
      (setup.evaluateWithin budget name s).state.cache := by
  induction h with
  | @own budget name s heard active options before option rest state t told resolved handler hcache
      hpush hsome hentries hbefore hresolve hhandler =>
    refine OrderedMap.Keeps.trans ?_ (keeps_visit hcache hpush)
    have hoption := setup.keeps_dispatch (setup.evaluateWithin budget) handler
      ⟨name, (StoredKey.split option.1).1, option.2, resolved.key⟩ state t
    rw [evalBody_of_some setup hsome, hentries, evalOptions_append, Journaled.bind_apply, hbefore]
    dsimp only [Outcome.after]
    rw [evalOptions, Journaled.bind_apply, evalOption_of_handler setup hresolve hhandler]
    split
    · exact hoption.trans
        (setup.bracketed_grows.evalOptions (setup.grows_evaluateWithin budget) name rest _
          _).cache
    · exact hoption
  | inner _ hasks _ ih ihdeeper => exact (ihdeeper.trans hasks.keeps).trans ih

end

/-! ## In a run -/

variable {names : List String} {s : Session} {demand first second : Demand} {name : String}
  {state : SectionState}

theorem evaluateEach_append (before after : List String) :
    setup.evaluateEach (before ++ after) =
      setup.evaluateEach before >>= fun _ => setup.evaluateEach after :=
  List.forM_append

theorem Demands.caches (h : setup.Demands names s demand) :
    setup.Caches s.cache demand.heard demand.session.cache := by
  induction h with
  | @own before _ _ _ _ _ hbefore =>
    have hkept := setup.bracketed_caches.evaluateEach before s
    rw [hbefore] at hkept
    exact hkept.2
  | @asked _ call _ _ _ _ hcalls hasks ih =>
    exact (hcalls.caches ih).trans ((caches_start call call.session.cache).trans hasks.caches)

theorem Demands.caches_answer (h : setup.Demands names s demand) :
    setup.Caches s.cache (demand.told setup) (demand.answer setup).state.cache :=
  h.caches.trans (caches_evaluateWithin _ _ _)

theorem Demands.keeps (h : setup.Demands names s demand) :
    (demand.answer setup).state.cache.Keeps (setup.evaluateEach names s).state.cache := by
  induction h with
  | @own before name rest t told hnames hbefore =>
    rw [hnames, evaluateEach_append, Journaled.bind_apply, hbefore, evaluateEach_cons]
    dsimp only [Demand.answer]
    split
    · exact (setup.kept_grows.evaluateEach rest _).cache
    · exact fun _ _ => id
  | asked _ hcalls hasks ih => exact (hasks.keeps.trans hcalls.keeps).trans ih

theorem Demands.room (h : setup.Demands names s demand) (hactive : s.active = ∅) :
    setup.Room demand.budget demand.session := by
  induction h with
  | @own before _ _ _ _ _ hbefore =>
    have hkept := setup.kept_grows.evaluateEach before s
    rw [hbefore] at hkept
    exact room_of_inactive (hkept.active.trans hactive)
  | asked _ hcalls hasks ih =>
    obtain ⟨next, state, hproceeds⟩ := hasks.exists_proceeds
    exact (hcalls.room ih).congr hproceeds.active_eq

/-- A cached section is answered from the cache, without a change of the session. -/
theorem Demands.answer_of_cached (h : setup.Demands names s demand) (hactive : s.active = ∅)
    (hcached : demand.session.cache.get? demand.target = some state) :
    (demand.answer setup).result = .ok state ∧ (demand.answer setup).state = demand.session := by
  have hroom := h.room hactive
  obtain ⟨budget, target, session, heard⟩ := demand
  cases budget with
  | zero => exact absurd hroom not_room_zero
  | succ budget =>
    rw [Demand.answer, evaluateWithin, visit_of_cached setup hcached]
    exact ⟨rfl, rfl⟩

/-- What the answer to a request leaves in the cache is there for every request that is made later.
-/
theorem Demands.get?_mono (hfirst : setup.Demands names s first)
    (hsecond : setup.Demands names s second) (hbegins : first.told setup <+: second.heard)
    (hcached : (first.answer setup).state.cache.get? name = some state) :
    second.session.cache.get? name = some state := by
  have hname := hfirst.caches_answer.contains_mono hsecond.caches hbegins
    (Option.isSome_of_eq_some hcached)
  obtain ⟨state', hstate'⟩ := Option.isSome_iff_exists.1 hname
  -- both states are what the cache has at the end of the run
  have hend := hfirst.keeps hcached
  have hend' := hsecond.keeps ((caches_evaluateWithin _ _ _).keeps hstate')
  rw [hstate', Option.some.inj (hend'.symm.trans hend)]

end Setup

end IniCompose
