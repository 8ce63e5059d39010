import IniCompose.Proofs.Evaluation.Lockstep
import IniCompose.Proofs.Evaluation.Routing
import Mathlib.Logic.Function.Iterate

/-!
# How deep evaluations nest

Requests come from handlers, and these run in sections that exist. So when a section is requested
all active sections exist, and as they are distinct there are no more of them than sections. At
every moment of a run the active sections are distinct, all but the innermost exist, and there is at
most one more of them than sections. A run ends, whatever the handlers request and recover from:
what would answer requests that nest deeper makes no difference.
-/
namespace IniCompose

namespace Setup

/-! ## Moments of a run -/

/-- A program has come, by some of its requests, to another one. -/
inductive Proceeds (setup : Setup) (nested : Evaluator) :
    Program Unit → Session × SectionState → Program Unit → Session × SectionState → Prop
  | refl {program s} : Proceeds setup nested program s program s
  | step {request next s answer t told program u} :
    setup.answer nested request s = ⟨.ok answer, t, told⟩ →
    Proceeds setup nested (next answer) t program u →
    Proceeds setup nested (.ask request next) s program u

/-- Evaluating a section, requested in a session, passes through a session. -/
inductive Moment (setup : Setup) : Nat → String → Session → Session → Prop
  /-- The section is requested. -/
  | requested {budget name s} : Moment setup budget name s s
  | entered {budget name s active} :
    s.cache.get? name = none → s.active.push name = .ok active →
    Moment setup (budget + 1) name s { s with active }
  /-- Some of the options have been evaluated, the last one of them perhaps to a fault. -/
  | between {budget name s active options before rest} :
    s.cache.get? name = none → s.active.push name = .ok active →
    setup.document.options? name = some options → options.entries = before ++ rest →
    Moment setup (budget + 1) name s
      (setup.evalOptions (setup.evaluateWithin budget) name before ∅ { s with active }).state
  /-- A handler has made some of its requests, or all of them. -/
  | handling {budget name s heard call program t} :
    setup.Calls budget name s heard call →
    setup.Proceeds (setup.evaluateWithin call.budget) (call.handler call.site)
      (call.session, call.state) program t →
    Moment setup budget name s t.1
  /-- The evaluation of a section that a handler requests passes through the session. -/
  | nested {budget name s heard call target next t u} :
    setup.Calls budget name s heard call →
    setup.Proceeds (setup.evaluateWithin call.budget) (call.handler call.site)
      (call.session, call.state) (.ask (.evaluate target) next) t →
    Moment setup call.budget target t.1 u → Moment setup budget name s u
  /-- The section has been left, with a state or with a fault. -/
  | left {budget name s} : Moment setup budget name s (setup.evaluateWithin budget name s).state

/-- The sections are distinct, all but the innermost exist, and there is at most one more of them
than sections. -/
structure Nests (setup : Setup) (active : ActiveSections) : Prop where
  nodup : active.stack.Nodup
  exist : ∀ name ∈ active.stack.tail, setup.document.hasSection name
  depth_le : active.depth ≤ setup.document.size + 1

/-- A section may be requested: the active sections exist, and requests may nest deeper than there
are sections. -/
structure Room (setup : Setup) (budget : Nat) (s : Session) : Prop where
  exist : ∀ name ∈ s.active.stack, setup.document.hasSection name
  size_lt : setup.document.size < s.active.depth + budget

variable {setup : Setup} {s t : Session} {budget : Nat} {name : String}

/-! ## Room for further requests -/

theorem not_room_zero : ¬ setup.Room 0 s := by
  intro h
  have hdepth := depth_le_size h.exist
  have hsize := h.size_lt
  omega

theorem Room.congr (h : setup.Room budget s) (hactive : t.active = s.active) :
    setup.Room budget t := by
  obtain ⟨hexist, hsize⟩ := h
  rw [← hactive] at hexist hsize
  exact ⟨hexist, hsize⟩

/-- Inside an existing section there is room for requests with one less to come. -/
theorem Room.enter (h : setup.Room (budget + 1) s) {active : ActiveSections}
    (hexists : setup.document.hasSection name) (hpush : s.active.push name = .ok active) :
    setup.Room budget { s with active } := by
  obtain ⟨-, hstack⟩ := ActiveSections.push_eq_ok_iff.1 hpush
  refine ⟨?_, ?_⟩
  · simpa [hstack, hexists] using h.exist
  · have hsize := h.size_lt
    simp only [ActiveSections.depth, hstack, List.length_cons] at hsize ⊢
    omega

/-- A session without active sections has room for every nesting. -/
theorem room_of_inactive (h : s.active = ∅) : setup.Room (setup.document.size + 1) s := by
  refine ⟨?_, ?_⟩
  · rw [h]
    intro name hname
    cases hname
  · omega

theorem Proceeds.active_eq {program program' : Program Unit} {s t : Session × SectionState}
    (h : setup.Proceeds (setup.evaluateWithin budget) program s program' t) :
    t.1.active = s.1.active := by
  induction h with
  | refl => rfl
  | @step request next s _ _ _ _ _ hanswer _ ih =>
    have hkept := setup.bracketed_grows.answer (setup.grows_evaluateWithin budget) request s
    rw [hanswer] at hkept
    exact ih.trans hkept.active

theorem Asks.exists_proceeds {program : Program Unit} {s : Session × SectionState}
    {target : String} {told : Journal}
    (h : setup.Asks (setup.evaluateWithin budget) program s target t told) :
    ∃ next state, setup.Proceeds (setup.evaluateWithin budget) program s
      (.ask (.evaluate target) next) (t, state) := by
  induction h with
  | @now _ _ s => exact ⟨_, s.2, .refl⟩
  | later hanswer _ ih =>
    obtain ⟨next, state, hproceeds⟩ := ih
    exact ⟨next, state, .step hanswer hproceeds⟩

/-- When a handler is called there is room for its requests. -/
theorem Calls.room {heard : Journal} {call : Call} (h : setup.Calls budget name s heard call)
    (hroom : setup.Room budget s) : setup.Room call.budget call.session := by
  induction h with
  | @own budget name s _ active options before _ _ _ t _ _ _ _ hpush hsome _ hbefore =>
    have hkept := setup.bracketed_grows.evalOptions (setup.grows_evaluateWithin budget) name before
      ∅ { s with active }
    rw [hbefore] at hkept
    exact (hroom.enter (hasSection_iff.2 ⟨options, hsome⟩) hpush).congr hkept.active
  | inner _ hasks _ ih ihdeeper =>
    obtain ⟨next, state, hproceeds⟩ := hasks.exists_proceeds
    exact ihdeeper ((ih hroom).congr hproceeds.active_eq)

/-! ## What holds at every moment -/

theorem Room.nests (h : setup.Room budget s) : setup.Nests s.active where
  nodup := s.active.nodup
  exist name hname := h.exist name (List.mem_of_mem_tail hname)
  depth_le := Nat.le_succ_of_le (depth_le_size h.exist)

theorem Room.nests_push (h : setup.Room budget s) {active : ActiveSections}
    (hpush : s.active.push name = .ok active) : setup.Nests active := by
  obtain ⟨-, hstack⟩ := ActiveSections.push_eq_ok_iff.1 hpush
  refine ⟨active.nodup, by simpa [hstack] using h.exist, ?_⟩
  have hdepth := depth_le_size h.exist
  simp only [ActiveSections.depth, hstack, List.length_cons] at hdepth ⊢
  omega

/-- Induction on the moment: a handler's requests have room again. -/
theorem Moment.nests (h : setup.Moment budget name s t) (hroom : setup.Room budget s) :
    setup.Nests t.active := by
  induction h with
  | requested => exact hroom.nests
  | entered _ hpush => exact hroom.nests_push hpush
  | @between budget name s active _ before _ _ hpush =>
    have hkept := setup.bracketed_grows.evalOptions (setup.grows_evaluateWithin budget) name before
      ∅ { s with active }
    rw [hkept.active]
    exact hroom.nests_push hpush
  | handling hcalls hproceeds => exact ((hcalls.room hroom).congr hproceeds.active_eq).nests
  | nested hcalls hproceeds _ ih => exact ih ((hcalls.room hroom).congr hproceeds.active_eq)
  | @left budget name s =>
    exact (hroom.congr (setup.grows_evaluateWithin budget name s).active).nests

/-! ## Termination -/

theorem steady_room (setup : Setup) (budget : Nat) :
    setup.Steady (fun _ => True) (setup.Room budget) where
  report h severity fault _ := h.congr (setup.bracketed_grows.report severity fault _).active
  settle h site error := h.congr (setup.bracketed_grows.settle site error _).active

theorem visit_congr {nested nested' : Evaluator}
    (h : ∀ active, s.active.push name = .ok active →
      setup.evalBody nested name { s with active } =
        setup.evalBody nested' name { s with active }) :
    setup.visit nested name s = setup.visit nested' name s := by
  cases hcache : s.cache.get? name with
  | some state => rw [visit_of_cached setup hcache, visit_of_cached setup hcache]
  | none =>
    cases hpush : s.active.push name with
    | error fault => rw [visit_of_active setup hcache hpush, visit_of_active setup hcache hpush]
    | ok active =>
      rw [visit_of_entered setup hcache hpush, visit_of_entered setup hcache hpush, h active hpush]

/-- What would answer requests that nest deeper than there are sections is never asked. Induction on
the budget: a section that does not exist makes no requests, and inside one that does there is room
for the budget that is left. -/
theorem iterate_visit_eq (h : setup.Room budget s) (beyond : Evaluator) (name : String) :
    (setup.visit^[budget]) beyond name s = setup.evaluateWithin budget name s := by
  induction budget generalizing name s with
  | zero => exact absurd h not_room_zero
  | succ budget ih =>
    rw [Function.iterate_succ_apply', evaluateWithin]
    refine visit_congr fun active hpush => ?_
    cases hoptions : setup.document.options? name with
    | none => rw [evalBody_of_none setup hoptions, evalBody_of_none setup hoptions]
    | some options =>
      have hroom := h.enter (hasSection_iff.2 ⟨options, hoptions⟩) hpush
      let wanted := Comparison.same (setup.Room budget) fun _ => False
      have hnested (target : String) {t t' : Session} (ht : wanted.related t t') :
          wanted.Matches wanted.related ((setup.visit^[budget]) beyond target t)
            (setup.evaluateWithin budget target t') := by
        obtain ⟨rfl, hroom⟩ := ht
        rw [ih hroom]
        exact Comparison.same_matches fun _ =>
          hroom.congr (setup.grows_evaluateWithin budget target t).active
      have hlaws : wanted.Laws setup setup fun _ => True :=
        Comparison.same_laws (steady_room setup budget) (by simp)
      exact ((hlaws.evalBody hnested (Registry.only_true _) rfl ⟨rfl, hroom⟩).eq_of_same id).1

end Setup

namespace Engine

variable {engine : Engine}

/-- A run of the engine requests a section by itself: one that is not kept, or every one. -/
inductive Opens (engine : Engine) : String → Session → Prop
  | evaluate {name} :
    engine.cache.get? name = none → Opens engine name { cache := engine.cache }
  | evaluateAll {before name rest s told} :
    engine.document.names = before ++ name :: rest →
    engine.toSetup.evaluateEach before { cache := engine.cache } = ⟨.ok (), s, told⟩ →
    Opens engine name s

variable {name : String} {s : Session}

theorem Opens.active_eq (h : engine.Opens name s) : s.active = ∅ := by
  cases h with
  | evaluate => rfl
  | @evaluateAll before _ _ _ _ _ hbefore =>
    have hkept := engine.kept_grows.evaluateEach before { cache := engine.cache }
    rw [hbefore] at hkept
    exact hkept.active

/-- At every moment of a run the active sections nest as they should, every evaluation on the way
leaves them as it found them, and requests never nest deeper than the run allows for: the section is
evaluated as by the unbounded recursion. -/
theorem nesting_bounded (h : engine.Opens name s) :
    (∀ t, engine.toSetup.Moment (engine.document.size + 1) name s t →
      engine.toSetup.Nests t.active) ∧
    (∀ budget target t,
      (engine.toSetup.evaluateWithin budget target t).state.active = t.active) ∧
    ∀ beyond, (engine.toSetup.visit^[engine.document.size + 1]) beyond name s =
      engine.toSetup.evaluate name s := by
  have hroom : engine.toSetup.Room (engine.document.size + 1) s :=
    Setup.room_of_inactive h.active_eq
  refine ⟨fun t hmoment => hmoment.nests hroom, ?_, ?_⟩
  · exact fun budget target t => (engine.toSetup.grows_evaluateWithin budget target t).active
  · exact fun beyond => Setup.iterate_visit_eq hroom beyond name

/-- A section that requests itself and an absent section, and goes on after both faults. -/
def recovering : Engine :=
  .ordinary ⟨.ofList [("A", .ofList [("try A", ""), ("try Ghost", "")])]⟩
    (Registry.standard.register "try" fun site => do
      let _ ← Program.evaluate site.key.parameter)

/-- The absent section is the innermost of two active ones, over a document with one section. -/
theorem nesting_bounded_recovering :
    recovering.Opens "A" {} ∧
    (∃ t, recovering.toSetup.Moment (recovering.document.size + 1) "A" {} t ∧
      t.active.stack = ["Ghost", "A"] ∧ recovering.toSetup.Nests t.active) ∧
    (recovering.toSetup.evaluate "A" {}).result = .ok ∅ ∧
    ∀ beyond, (recovering.toSetup.visit^[2]) beyond "A" {} =
      recovering.toSetup.evaluate "A" {} := by
  have hopens : recovering.Opens "A" {} := .evaluate rfl
  have hentries : (OrderedMap.ofList [("try A", ""), ("try Ghost", "")]).entries =
      [("try A", "")] ++ ("try Ghost", "") :: [] := rfl
  obtain ⟨hnests, -, hbeyond⟩ := nesting_bounded hopens
  have hcalls : recovering.toSetup.Calls 2 "A" {} [] _ := .own rfl rfl rfl hentries rfl rfl rfl
  have hmoment := Setup.Moment.nested hcalls .refl (.entered rfl rfl)
  exact ⟨hopens, ⟨_, hmoment, rfl, hnests _ hmoment⟩, rfl, hbeyond⟩

end Engine

end IniCompose
