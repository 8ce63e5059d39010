import IniCompose.Proofs.Evaluation.Alone
import IniCompose.Proofs.Evaluation.Nesting
import Mathlib.Data.List.Pairwise

/-!
# Evaluations that give what sections come to by themselves

As long as no cycle is found, an evaluation gives what the section comes to by itself, whatever the
sections around it and whatever is cached, and caches nothing else. A fault that tells of a cycle
lists the sections around it, and so it is different in every session; what is left with a state
after it may be too. Conversely, a section that comes to something by itself is evaluated to that.
-/
namespace IniCompose

/-! ## Cycles in a journal -/

/-- The event is the entry of a fault that tells of a cycle. -/
def Event.TellsCycle : Event → Prop
  | .entry logged => logged.kind = .warning ∧ logged.name = "circular-reference"
  | _ => False

/-- The event is the entry for leaving a section with a state. -/
def Event.Leaves : Event → Prop
  | .entry logged => logged.kind = .sectionExit
  | _ => False

instance : DecidablePred Event.TellsCycle
  | .entry logged =>
    inferInstanceAs (Decidable (logged.kind = .warning ∧ logged.name = "circular-reference"))
  | .custom _ | .message _ _ | .note _ => .isFalse id

instance : DecidablePred Event.Leaves
  | .entry logged => inferInstanceAs (Decidable (logged.kind = .sectionExit))
  | .custom _ | .message _ _ | .note _ => .isFalse id

namespace Journal

/-- A cycle has been found. -/
def Cyclic (journal : Journal) : Prop := ∃ event ∈ journal, event.TellsCycle

/-- After a cycle has been found no section is left with a state. -/
def CyclesFatal (journal : Journal) : Prop :=
  journal.Pairwise fun event later => event.TellsCycle → ¬ later.Leaves

instance : DecidablePred CyclesFatal := fun journal =>
  inferInstanceAs (Decidable (journal.Pairwise _))

theorem cyclic_append {first second : Journal} :
    Cyclic (first ++ second) ↔ first.Cyclic ∨ second.Cyclic := by
  simp only [Cyclic, List.mem_append, or_and_right, exists_or]

theorem cyclesFatal_of_not_cyclic {journal : Journal} (h : ¬ journal.Cyclic) :
    journal.CyclesFatal :=
  List.pairwise_of_forall_mem_list fun event hevent _ _ hcycle => absurd ⟨event, hevent, hcycle⟩ h

theorem CyclesFatal.left {first second : Journal} (h : CyclesFatal (first ++ second)) :
    first.CyclesFatal :=
  (List.pairwise_append.1 h).1

theorem CyclesFatal.right {first second : Journal} (h : CyclesFatal (first ++ second)) :
    second.CyclesFatal :=
  (List.pairwise_append.1 h).2.1

/-- A section that is left with a state had no cycle before. -/
theorem CyclesFatal.not_cyclic {journal : Journal} {event : Event}
    (h : CyclesFatal (journal ++ [event])) (hleaves : event.Leaves) : ¬ journal.Cyclic := by
  rintro ⟨earlier, hearlier, hcycle⟩
  exact (List.pairwise_append.1 h).2.2 earlier hearlier event (by simp) hcycle hleaves

end Journal

/-- The session after a section has been left. -/
def Session.exit (s : Session) (name : String) : Session :=
  { s with active := s.active.pop name }

namespace Setup

variable {setup : Setup} {s t : Session} {budget depth : Nat} {name : String}
  {active : ActiveSections}

/-! ## Sound sessions -/

/-- Sections may be requested, each cached state is what its section comes to by itself, and the
remembered fault makes no difference. -/
structure Sound (setup : Setup) (budget : Nat) (s : Session) : Prop where
  room : setup.Room budget s
  faithful : ∀ {name state}, s.cache.get? name = some state → setup.Yields name (.ok state)
  warrants : setup.Warrants s

theorem Sound.remember (h : setup.Sound budget s) {fault : Fault}
    (hraise : setup.policy.decision fault.severity = .raise) :
    setup.Sound budget { s with raised := some fault.message } where
  room := h.room.congr rfl
  faithful := h.faithful
  warrants := warrants_raised hraise s

theorem steady_sound : setup.Steady setup.Discreet (setup.Sound budget) :=
  steady_of_raised fun h hraise => h.remember hraise

theorem Sound.enter (h : setup.Sound (budget + 1) s) (hexists : setup.document.hasSection name)
    (hpush : s.active.push name = .ok active) : setup.Sound budget { s with active } where
  room := h.room.enter hexists hpush
  faithful := h.faithful
  warrants := h.warrants

/-- The session after the options of a section, which has become the innermost one of `s`. -/
theorem Sound.exit (h : setup.Sound (budget + 1) s) (ht : setup.Sound budget t)
    (hpush : s.active.push name = .ok active) (hactive : t.active = active) :
    setup.Sound (budget + 1) (t.exit name) where
  room := h.room.congr (by rw [Session.exit, hactive, ActiveSections.pop_push hpush])
  faithful := ht.faithful
  warrants := ht.warrants

theorem Sound.leave (h : setup.Sound budget s) {state? : Option SectionState}
    (hyields : setup.Yields name (.ok (state?.getD ∅))) :
    setup.Sound budget (leave name s state?) := by
  cases state? with
  | none => exact h
  | some state =>
    refine ⟨h.room.congr rfl, ?_, h.warrants⟩
    intro other found hfound
    simp only [Setup.leave, OrderedMap.get?_insert] at hfound
    split at hfound
    · next heq =>
      cases hfound
      exact heq ▸ hyields
    · exact h.faithful hfound

/-! ## Sections that are entered -/

section

variable (hcache : s.cache.get? name = none) (hpush : s.active.push name = .ok active)

include hcache hpush

theorem sound_visit_of_entered {nested : Evaluator}
    (hleft : setup.Sound budget ((setup.evalBody nested name { s with active }).state.exit name))
    (hyields : ∀ state?, (setup.evalBody nested name { s with active }).result = .ok state? →
      setup.Yields name (.ok (state?.getD ∅))) :
    setup.Sound budget (setup.visit nested name s).state := by
  rw [visit_of_entered setup hcache hpush]
  dsimp only
  split
  · exact hleft
  · next state? hbody => exact hleft.leave (hyields state? hbody)

end

/-- An absent section makes no requests. -/
theorem body_of_none (hnone : setup.document.options? name = none)
    (hs : setup.Sound (budget + 1) s) (hpush : s.active.push name = .ok active)
    (nested : Evaluator) :
    setup.Sound (budget + 1) ((setup.evalBody nested name { s with active }).state.exit name) ∧
    setup.Yields name
      ((setup.evalBody nested name { s with active }).result.map (·.getD ∅)) := by
  rw [evalBody_of_none setup hnone]
  refine ⟨?_, 1, finishes_of_none hnone, ?_⟩
  · have hsteady : setup.Steady setup.Discreet fun t => setup.Sound (budget + 1) (t.exit name) :=
      steady_of_raised fun ht hraise => ht.remember hraise
    refine hsteady.report ?_ .serious (.sectionNotFound name) (.inr rfl)
    rwa [Session.exit, ActiveSections.pop_push hpush]
  · rw [alone_succ_apply, evalBody_of_none setup hnone]
    dsimp only
    rw [result_report, result_report]

theorem Yields.alone_enough {enough : Nat}
    (henough : ∀ name depth, setup.Finishes depth name → setup.Finishes enough name)
    {result : Except Fault SectionState} (h : setup.Yields name result) :
    setup.Finishes enough name ∧ (setup.alone enough name {}).result = result := by
  obtain ⟨depth, hfinishes, hresult⟩ := h
  have hfinishes' := henough name depth hfinishes
  exact ⟨hfinishes', Yields.unique ⟨enough, hfinishes', rfl⟩ ⟨depth, hfinishes, hresult⟩⟩

/-! ## What evaluations give -/

/-- An evaluation keeps sessions sound, and gives what the section comes to by itself unless a cycle
has been found and the section is not evaluated to a state. -/
structure Upholds (setup : Setup) (budget : Nat) (name : String)
    (outcome : Outcome Session Fault SectionState) : Prop where
  sound : outcome.journal.CyclesFatal → setup.Sound budget outcome.state
  yields : ¬ outcome.journal.Cyclic → setup.Yields name outcome.result
  completes : ∀ {state}, outcome.journal.CyclesFatal → outcome.result = .ok state →
    setup.Yields name (.ok state)

section

variable (hdiscreet : setup.registry.Only setup.Discreet)
  (hnested : ∀ {target t}, setup.Sound budget t →
    setup.Upholds budget target (setup.evaluateWithin budget target t))

include hdiscreet hnested

/-- Cached states stay faithful, since what is left after a cycle is not cached. -/
theorem sound_evalBody (hs : setup.Sound budget s)
    (hfatal : (setup.evalBody (setup.evaluateWithin budget) name s).journal.CyclesFatal) :
    setup.Sound budget (setup.evalBody (setup.evaluateWithin budget) name s).state := by
  let equal := Comparison.same (setup.Sound budget) fun journal => ¬ journal.CyclesFatal
  have hlaws : equal.Laws setup setup setup.Discreet := by
    refine Comparison.same_laws steady_sound ?_
    rintro j k (hbroken | hbroken) hfatal
    · exact hbroken hfatal.left
    · exact hbroken hfatal.right
  have hequal (target : String) {t t' : Session} (ht : equal.related t t') :
      equal.Matches equal.related (setup.evaluateWithin budget target t)
        (setup.evaluateWithin budget target t') := by
    obtain ⟨rfl, hsound⟩ := ht
    exact Comparison.same_matches fun hfatal => (hnested hsound).sound (not_not.1 hfatal)
  have hstart : equal.related s s := ⟨rfl, hs⟩
  exact ((hlaws.evalBody hequal hdiscreet rfl hstart).eq_of_same (not_not.2 hfatal)).2

/-- As long as no cycle is found, the options go the same way as by themselves. -/
theorem yields_evalBody (hs : setup.Sound budget s)
    (hcyclic : ¬ (setup.evalBody (setup.evaluateWithin budget) name s).journal.Cyclic) :
    setup.Yields name
      ((setup.evalBody (setup.evaluateWithin budget) name s).result.map (·.getD ∅)) := by
  obtain ⟨enough, henough⟩ := setup.exists_enough
  let beside := setup.beside (setup.Sound budget) fun j _ => j.Cyclic
  have hlaws : beside.Laws setup setup setup.Discreet :=
    beside_laws steady_sound Sound.warrants Journal.cyclic_append.2
  have hbeside (target : String) {t t' : Session} (ht : beside.related t t') :
      beside.Matches beside.related (setup.evaluateWithin budget target t)
        (setup.alone enough target t') := by
    obtain ⟨hsound, hwarrants⟩ := ht
    have hupholds : setup.Upholds budget target (setup.evaluateWithin budget target t) :=
      hnested hsound
    by_cases hcyclic : (setup.evaluateWithin budget target t).journal.Cyclic
    · exact .inl hcyclic
    · obtain ⟨hfinishes, hresult⟩ := (hupholds.yields hcyclic).alone_enough henough
      rw [alone_apply]
      exact .inr ⟨hresult.symm,
        ⟨hupholds.sound (Journal.cyclesFatal_of_not_cyclic hcyclic), hwarrants⟩, hfinishes⟩
  have hstart : beside.related s {} := ⟨hs, warrants_of_forgotten rfl⟩
  obtain hparted | ⟨hresult, -, hfinished⟩ := hlaws.evalBody hbeside hdiscreet rfl hstart
  · exact absurd hparted hcyclic
  · refine ⟨enough + 1, hfinished, ?_⟩
    rw [hresult]
    rfl

theorem body_of_entered (hs : setup.Sound (budget + 1) s)
    (hpush : s.active.push name = .ok active) :
    let body := setup.evalBody (setup.evaluateWithin budget) name { s with active }
    (body.journal.CyclesFatal → setup.Sound (budget + 1) (body.state.exit name)) ∧
    (¬ body.journal.Cyclic → setup.Yields name (body.result.map (·.getD ∅))) := by
  dsimp only
  cases hoptions : setup.document.options? name with
  | none =>
    obtain ⟨hleft, hyields⟩ := body_of_none hoptions hs hpush (setup.evaluateWithin budget)
    exact ⟨fun _ => hleft, fun _ => hyields⟩
  | some options =>
    have hentered := hs.enter (hasSection_iff.2 ⟨options, hoptions⟩) hpush
    have hkept := setup.bracketed_grows.evalBody (setup.grows_evaluateWithin budget) name
      { s with active }
    refine ⟨fun hfatal => ?_, yields_evalBody hdiscreet hnested hentered⟩
    exact hs.exit (sound_evalBody hdiscreet hnested hentered hfatal) hpush hkept.active

theorem upholds_visit (hs : setup.Sound (budget + 1) s) :
    setup.Upholds (budget + 1) name (setup.visit (setup.evaluateWithin budget) name s) := by
  cases hcache : s.cache.get? name with
  | some state =>
    have hyields := hs.faithful hcache
    rw [visit_of_cached setup hcache]
    refine ⟨fun _ => hs, fun _ => hyields, fun _ hok => ?_⟩
    cases hok
    exact hyields
  | none =>
    cases hpush : s.active.push name with
    | error fault =>
      obtain ⟨-, rfl⟩ := ActiveSections.push_eq_error hpush
      rw [visit_of_active setup hcache hpush]
      refine ⟨fun _ => hs.remember (Severity.decision_critical _), fun hcyclic => ?_, ?_⟩
      · exact absurd ⟨_, List.mem_cons_self, rfl, rfl⟩ hcyclic
      · intro _ _ hok
        cases hok
    | ok active =>
      obtain ⟨hleft, hyields⟩ := body_of_entered hdiscreet hnested hs hpush
      obtain ⟨last, hjournal, hlast⟩ :=
        setup.journal_visit_of_entered hcache hpush (setup.evaluateWithin budget)
      have hok : (setup.visit (setup.evaluateWithin budget) name s).journal.CyclesFatal →
          ∀ state?, (setup.evalBody (setup.evaluateWithin budget) name { s with active }).result =
            .ok state? → setup.Yields name (.ok (state?.getD ∅)) := by
        intro hfatal state? hbody
        rw [hjournal, hlast state? hbody, List.append_assoc] at hfatal
        have hresult := hyields (hfatal.right.not_cyclic rfl)
        rwa [hbody] at hresult
      refine ⟨fun hfatal => ?_, fun hcyclic => ?_, fun {state} hfatal hstate => ?_⟩
      · refine sound_visit_of_entered hcache hpush (hleft ?_) (hok hfatal)
        rw [hjournal] at hfatal
        exact hfatal.left.right
      · rw [result_visit_of_entered setup hcache hpush]
        refine hyields fun hbody => hcyclic ?_
        rw [hjournal]
        exact Journal.cyclic_append.2 (.inl (Journal.cyclic_append.2 (.inr hbody)))
      · rw [result_visit_of_entered setup hcache hpush] at hstate
        obtain ⟨state?, hbody, rfl⟩ := Except.ok_of_map_eq_ok hstate
        exact hok hfatal state? hbody

end

/-- Induction on the budget. -/
theorem upholds_evaluateWithin (hdiscreet : setup.registry.Only setup.Discreet)
    (hs : setup.Sound budget s) :
    setup.Upholds budget name (setup.evaluateWithin budget name s) := by
  induction budget generalizing name s with
  | zero => exact absurd hs.room not_room_zero
  | succ budget ih => exact upholds_visit hdiscreet ih hs

/-! ## What comes to something by itself -/

/-- A section that finishes at a depth is evaluated to what it comes to by itself, where none of the
sections around it finishes. -/
def Attains (setup : Setup) (budget depth : Nat) : Prop :=
  ∀ name s, setup.Finishes depth name → setup.Sound budget s →
    (∀ target ∈ s.active.stack, ¬ setup.Finishes depth target) →
    (setup.evaluateWithin budget name s).result = (setup.alone depth name {}).result ∧
      setup.Sound budget (setup.evaluateWithin budget name s).state

section

variable (hdiscreet : setup.registry.Only setup.Discreet)

include hdiscreet

/-- The options of an existing section that finishes, if requests that finish are answered alike. -/
theorem evalBody_of_finishes (hfinishes : setup.Finishes (depth + 1) name)
    (hs : setup.Sound budget s)
    (hactive : ∀ target ∈ s.active.stack, ¬ setup.Finishes depth target)
    (hnested : setup.Attains budget depth) :
    (setup.evalBody (setup.evaluateWithin budget) name s).result.map (·.getD ∅) =
        (setup.alone (depth + 1) name {}).result ∧
      setup.Sound budget (setup.evalBody (setup.evaluateWithin budget) name s).state := by
  let beside := setup.beside
    (fun t => setup.Sound budget t ∧ ∀ target ∈ t.active.stack, ¬ setup.Finishes depth target)
    fun _ j' => ¬ j'.Finished
  have hlaws : beside.Laws setup setup setup.Discreet := by
    refine beside_laws (steady_of_raised fun h hraise => ⟨h.1.remember hraise, h.2⟩)
      (fun h => h.1.warrants) ?_
    intro _ _ _ _ hparted
    rwa [Journal.finished_append, not_and_or]
  have hbeside (target : String) {t t' : Session} (ht : beside.related t t') :
      beside.Matches beside.related (setup.evaluateWithin budget target t)
        (setup.alone depth target t') := by
    obtain ⟨⟨hsound, hunfinished⟩, hwarrants⟩ := ht
    rw [alone_apply]
    by_cases hfinished : setup.Finishes depth target
    · obtain ⟨hresult, hsound'⟩ := hnested target t hfinished hsound hunfinished
      have hkept := (setup.grows_evaluateWithin budget target t).active
      exact .inr ⟨hresult, ⟨⟨hsound', by rwa [hkept]⟩, hwarrants⟩, hfinished⟩
    · exact .inl hfinished
  have hstart : beside.related s {} := ⟨⟨hs, hactive⟩, warrants_of_forgotten rfl⟩
  obtain hparted | ⟨hresult, ⟨⟨hsound, -⟩, -⟩, -⟩ := hlaws.evalBody hbeside hdiscreet rfl hstart
  · exact absurd hfinishes hparted
  · exact ⟨congrArg (Except.map (·.getD ∅)) hresult, hsound⟩

theorem body_of_finishes (hfinishes : setup.Finishes (depth + 1) name)
    (hs : setup.Sound (budget + 1) s) (hpush : s.active.push name = .ok active)
    (hactive : ∀ target ∈ active.stack, ¬ setup.Finishes depth target)
    (hnested : setup.Attains budget depth) :
    let body := setup.evalBody (setup.evaluateWithin budget) name { s with active }
    body.result.map (·.getD ∅) = (setup.alone (depth + 1) name {}).result ∧
      setup.Sound (budget + 1) (body.state.exit name) := by
  dsimp only
  cases hoptions : setup.document.options? name with
  | none =>
    obtain ⟨hleft, hyields⟩ := body_of_none hoptions hs hpush (setup.evaluateWithin budget)
    exact ⟨hyields.unique ⟨depth + 1, hfinishes, rfl⟩, hleft⟩
  | some options =>
    have hentered := hs.enter (hasSection_iff.2 ⟨options, hoptions⟩) hpush
    have hkept := setup.bracketed_grows.evalBody (setup.grows_evaluateWithin budget) name
      { s with active }
    obtain ⟨hresult, hsound⟩ := evalBody_of_finishes hdiscreet hfinishes hentered hactive hnested
    exact ⟨hresult, hs.exit hsound hpush hkept.active⟩

/-- Induction on the depth at which the section finishes. A section that finishes at less has no
section around it that does; else the section itself is one more that does not. -/
theorem attains (budget depth : Nat) : setup.Attains budget depth := by
  induction depth generalizing budget with
  | zero => exact fun _ _ hfinishes => absurd hfinishes not_finishes_zero
  | succ depth ih =>
    intro name s hfinishes hs hactive
    have hactive' : ∀ target ∈ s.active.stack, ¬ setup.Finishes depth target :=
      fun target htarget hfinishes => hactive target htarget (hfinishes.of_le (Nat.le_succ _))
    by_cases hless : setup.Finishes depth name
    · rw [alone_succ hless]
      exact ih budget name s hless hs hactive'
    obtain _ | budget := budget
    · exact absurd hs.room not_room_zero
    have hyields : setup.Yields name (setup.alone (depth + 1) name {}).result :=
      ⟨depth + 1, hfinishes, rfl⟩
    rw [evaluateWithin]
    cases hcache : s.cache.get? name with
    | some state =>
      rw [visit_of_cached setup hcache]
      exact ⟨(hs.faithful hcache).unique hyields, hs⟩
    | none =>
      cases hpush : s.active.push name with
      | error fault =>
        exact absurd hfinishes (hactive name (ActiveSections.push_eq_error hpush).1)
      | ok active =>
        obtain ⟨-, hstack⟩ := ActiveSections.push_eq_ok_iff.1 hpush
        obtain ⟨hresult, hleft⟩ := body_of_finishes hdiscreet hfinishes hs hpush
          (by simpa [hstack, hless] using hactive') (ih budget)
        rw [result_visit_of_entered setup hcache hpush]
        refine ⟨hresult, sound_visit_of_entered hcache hpush hleft fun state? hstate => ?_⟩
        rwa [← hresult, hstate] at hyields

/-- In a session of its own a section is evaluated to what it comes to by itself. -/
theorem evaluate_of_yields {result : Except Fault SectionState} (h : setup.Yields name result) :
    (setup.evaluate name {}).result = result := by
  obtain ⟨depth, hfinishes, rfl⟩ := h
  have hsound : setup.Sound (setup.document.size + 1) {} :=
    ⟨room_of_inactive rfl, by simp, warrants_of_forgotten rfl⟩
  exact (attains hdiscreet _ depth name {} hfinishes hsound (List.forall_mem_nil _)).1

end

end Setup

end IniCompose
