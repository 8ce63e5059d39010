import IniCompose.Proofs.Engine.Steps
import IniCompose.Proofs.Evaluation.Surfacing

/-!
# A raised fault is the last word

Where every handler fails with the faults that it is answered, a raised fault passes through all the
handlers around it without being put to the policy again. So nothing goes on the record after it,
and a run has no more than one raised fault.
-/
namespace IniCompose

/-- An entry about a fault. -/
def Event.Warns : Event → Prop
  | .entry logged => logged.kind = .warning
  | .custom logged => logged.kind = .warning
  | _ => False

theorem Event.warns_of_raised {event : Event} (h : event.raised? ≠ none) : event.Warns := by
  cases event with
  | entry logged =>
    by_contra hkind
    exact h (raised?_eq_none_of_kind hkind)
  | custom _ | message _ _ | note _ => exact absurd rfl h

/-- The requests that put no entries about faults on the record by themselves. -/
def Request.Unwarning : Request → Prop
  | .record kind _ _ => kind ≠ .warning
  | _ => True

namespace Journal

/-- There is no entry about a fault. -/
def Clear (journal : Journal) : Prop := ∀ event ∈ journal, ¬ event.Warns

/-- After a fault that is raised there is no entry about a fault. -/
def Conclusive (journal : Journal) : Prop :=
  journal.Pairwise fun first later => first.raised? ≠ none → ¬ later.Warns

variable {journal first second : Journal}

theorem lastRaised_eq_none_iff :
    journal.lastRaised = none ↔ ∀ event ∈ journal, event.raised? = none := by
  simp [lastRaised]

theorem Clear.quiet (h : journal.Clear) : journal.lastRaised = none := by
  refine lastRaised_eq_none_iff.2 fun event hevent => ?_
  by_contra hraised
  exact h event hevent (Event.warns_of_raised hraised)

theorem conclusive_of_quiet (h : journal.lastRaised = none) : journal.Conclusive := by
  have hquiet := lastRaised_eq_none_iff.1 h
  refine List.pairwise_of_forall_mem_list fun first hfirst _ _ hraised => ?_
  exact absurd (hquiet first hfirst) hraised

theorem Conclusive.append (hfirst : first.Conclusive) (hsecond : second.Conclusive)
    (h : first.lastRaised = none ∨ second.Clear) : Conclusive (first ++ second) := by
  refine List.pairwise_append.2 ⟨hfirst, hsecond, fun event hevent later hlater hraised => ?_⟩
  obtain hquiet | hclear := h
  · exact absurd (lastRaised_eq_none_iff.1 hquiet event hevent) hraised
  · exact hclear later hlater

/-- A journal that has a raised fault: before it none is raised, and after it there is no entry
about a fault. -/
theorem Conclusive.exists_split (h : journal.Conclusive) {text : String}
    (hraised : journal.lastRaised = some text) :
    ∃ (before : Journal) (event : Event) (after : Journal), journal = before ++ event :: after ∧
      event.raised? = some text ∧ before.lastRaised = none ∧ after.Clear := by
  obtain ⟨event, hevent, htext⟩ := List.mem_filterMap.1 (List.mem_of_getLast? hraised)
  obtain ⟨before, after, rfl⟩ := List.append_of_mem hevent
  obtain ⟨-, hlast, hcross⟩ := List.pairwise_append.1 h
  have hsome : event.raised? ≠ none := by simp [htext]
  refine ⟨before, event, after, rfl, htext, ?_, fun later hlater => ?_⟩
  · refine lastRaised_eq_none_iff.2 fun earlier hearlier => ?_
    by_contra hne
    exact hcross earlier hearlier event List.mem_cons_self hne (Event.warns_of_raised hsome)
  · exact List.rel_of_pairwise_cons hlast hlater hsome

end Journal

/-! ## Handlers -/

theorem Request.nonempty_answer (request : Request) : Nonempty request.Answer := by
  cases request with
  | state => exact ⟨(∅ : SectionState)⟩
  | evaluate name => exact ⟨(.ok ∅ : Except Fault SectionState)⟩
  | report severity fault => exact ⟨(.ok () : Except Fault Unit)⟩
  | depth => exact ⟨(0 : Nat)⟩
  | settings => exact ⟨({} : Settings)⟩
  | setState _ | record _ _ _ | debug _ _ | note _ => exact ⟨()⟩

namespace Program

variable {α : Type}

/-- A program fails with one fault at most, whatever it is answered. -/
theorem FailsWith.unique {program : Program α} {fault other : Fault} (h : program.FailsWith fault)
    (hother : program.FailsWith other) : fault = other := by
  induction program with
  | done a => exact absurd h id
  | fail error => exact Option.some.inj (h.symm.trans hother)
  | ask request next ih =>
    obtain ⟨answer⟩ := request.nonempty_answer
    exact ih answer (h answer) (hother answer)

/-- A program that is bound to fail with a fault neither asks for another section nor puts a fault
to the policy: it would have to fail with what it is answered as well. -/
theorem FailsWith.request_ne {request : Request} {next : request.Answer → Program α} {fault : Fault}
    (h : (ask request next).FailsWith fault) (hpass : (ask request next).PassesOn) :
    (∀ name, request ≠ .evaluate name) ∧
      ∀ severity reported, request ≠ .report severity reported := by
  have hother (hanswers : ∀ other, ∃ given, (next given).FailsWith other) : False := by
    have hsame : ∀ other, other = fault := fun other =>
      (hanswers other).elim fun given hgiven => hgiven.unique (h given)
    cases (hsame (.sectionNotFound "")).trans (hsame (.circularReference "" [])).symm
  refine ⟨?_, ?_⟩
  · rintro name rfl
    exact hother fun other => ⟨_, hpass.1 other⟩
  · rintro severity reported rfl
    exact hother fun other => ⟨_, hpass.1 other⟩

end Program

namespace Setup

open Journal

variable {setup : Setup}

theorem clear_announcement (policy : Policy) (severity : Severity) (fault : Fault) :
    Journal.Clear (policy.announcement severity fault) := by
  intro event hevent
  obtain ⟨verbosity, text, rfl⟩ := Policy.mem_announcement hevent
  exact id

theorem clear_debugNotice (level : UInt8) (text : String) :
    Journal.Clear (setup.debugNotice level text) := by
  intro event hevent
  obtain ⟨verbosity, message, rfl⟩ := setup.mem_debugNotice hevent
  exact id

theorem report_conclusive (severity : Severity) (fault : Fault) (s : Session) :
    (setup.report severity fault s).journal.Conclusive := by
  have hannouncement := clear_announcement setup.policy severity fault
  have hentry (event : Event) : Journal.Conclusive [event] := List.pairwise_singleton _ event
  rw [report_apply]
  exact (hentry _).append (conclusive_of_quiet hannouncement.quiet) (.inr hannouncement)

theorem settle_conclusive (site : OptionSite) (error : HandlerError) (s : Session) :
    (setup.settle site error s).journal.Conclusive := by
  rw [settle_apply]
  split
  · exact List.Pairwise.nil
  · exact report_conclusive _ _ s

/-- What is asked for apart from other sections and the policy leaves no entry about a fault. -/
theorem clear_answer (nested : Evaluator) {request : Request} (hunwarning : request.Unwarning)
    (hevaluate : ∀ name, request ≠ .evaluate name)
    (hreport : ∀ severity fault, request ≠ .report severity fault) (s : Session × SectionState) :
    (setup.answer nested request s).journal.Clear := by
  cases request with
  | evaluate name => exact absurd rfl (hevaluate name)
  | report severity fault => exact absurd rfl (hreport severity fault)
  | record kind name details => exact List.forall_mem_singleton.2 hunwarning
  | debug level text =>
    rw [answer, debug_apply]
    exact clear_debugNotice level text
  | note text => exact List.forall_mem_singleton.2 id
  | state | setState _ | depth | settings => exact List.forall_mem_nil _

/-- What a program does that is bound to fail leaves no entry about a fault. -/
theorem clear_run_of_failsWith (nested : Evaluator) {α : Type} {program : Program α}
    {fault : Fault} (hfails : program.FailsWith fault) (hpass : program.PassesOn)
    (hunwarning : program.Only Request.Unwarning) (s : Session × SectionState) :
    (setup.run nested program s).journal.Clear := by
  induction program generalizing s with
  | done a => exact absurd hfails id
  | fail error => exact List.forall_mem_nil _
  | ask request next ih =>
    obtain ⟨answer, hanswer⟩ := setup.exists_answer nested request s
    obtain ⟨hevaluate, hreport⟩ := hfails.request_ne hpass
    have hasked := setup.clear_answer nested hunwarning.1 hevaluate hreport s
    have hrest := ih answer (hfails answer) (hpass.next answer) (hunwarning.2 answer)
    rw [run_ask, Journaled.bind_apply, hanswer]
    exact List.forall_mem_append.2 ⟨hasked, hrest _⟩

theorem conclusive_after_answer {nested : Evaluator} {α β : Type} {asked : Outcome Session Fault β}
    (hsurfaces : asked.Surfaces some) (hasked : asked.journal.Conclusive)
    {next : Except Fault β → Program α} {s : Session × SectionState}
    (hfault : ∀ fault, (setup.run nested (next (.error fault)) s).journal.Clear)
    (hrest : (setup.run nested (next asked.result) s).journal.Conclusive) :
    ((setup.run nested (next asked.result) s).after asked.journal).journal.Conclusive := by
  refine hasked.append hrest ?_
  cases hresult : asked.result with
  | ok a => exact .inl (hsurfaces.lastRaised_eq_none hresult)
  | error fault => exact .inr (hfault fault)

/-- Induction on the program: what comes after a raised fault only hands it on. -/
theorem run_conclusive {nested : Evaluator} (hsurfaces : ∀ name s, (nested name s).Surfaces some)
    (hnested : ∀ name s, (nested name s).journal.Conclusive) {α : Type} {program : Program α}
    (hpass : program.PassesOn) (hunwarning : program.Only Request.Unwarning)
    (s : Session × SectionState) : (setup.run nested program s).journal.Conclusive := by
  induction program generalizing s with
  | done a => exact List.Pairwise.nil
  | fail error => exact List.Pairwise.nil
  | ask request next ih =>
    have hrest (answer) (t) := ih answer (hpass.next answer) (hunwarning.2 answer) t
    have hclear (fault : Fault) {answer} (hfails : (next answer).FailsWith fault) (t) :
        (setup.run nested (next answer) t).journal.Clear :=
      clear_run_of_failsWith nested hfails (hpass.next answer) (hunwarning.2 answer) t
    have hother (hevaluate : ∀ name, request ≠ .evaluate name)
        (hreport : ∀ severity fault, request ≠ .report severity fault) :
        (setup.run nested (.ask request next) s).journal.Conclusive := by
      obtain ⟨answer, hanswer⟩ := setup.exists_answer nested request s
      have hasked : (setup.answer nested request s).journal.Clear :=
        clear_answer nested hunwarning.1 hevaluate hreport s
      rw [run_ask, Journaled.bind_apply, hanswer]
      exact (conclusive_of_quiet hasked.quiet).append (hrest answer _) (.inl hasked.quiet)
    cases request with
    | evaluate name =>
      exact conclusive_after_answer (hsurfaces name s.1) (hnested name s.1)
        (fun fault => hclear fault (hpass.1 fault) _) (hrest _ _)
    | report severity fault =>
      exact conclusive_after_answer (setup.report_surfaces severity fault s.1)
        (report_conclusive severity fault s.1) (fun fault => hclear fault (hpass.1 fault) _)
        (hrest _ _)
    | state | setState _ | record _ _ _ | depth | settings | debug _ _ | note _ =>
      exact hother (by simp) (by simp)

/-! ## Options and sections -/

section

variable {budget : Nat} (hpass : setup.registry.PassesOn)
  (hunwarning : setup.registry.Only Request.Unwarning)
  (hnested : ∀ name s, (setup.evaluateWithin budget name s).journal.Conclusive)

include hpass hunwarning hnested

/-- If the handler's requests have raised a fault, that is what it fails with, and it is not put to
the policy again. -/
theorem dispatch_conclusive {handler : Handler} (hheld : setup.registry.Holds handler)
    (site : OptionSite) (state : SectionState) (s : Session) :
    (setup.dispatch (setup.evaluateWithin budget) handler site state s).journal.Conclusive := by
  have hsurfaces := evaluateWithin_surfaces hpass budget
  have hrun : (setup.run _ (handler site) (s, state)).journal.Conclusive :=
    run_conclusive hsurfaces hnested (hpass handler hheld site) (hunwarning handler hheld site) _
  have hsurface : (setup.run _ (handler site) (s, state)).Surfaces HandlerError.fault? :=
    run_surfaces hsurfaces (hpass handler hheld site) _
  have hraised := setup.bracketed_raised.run (setup.bracketed_raised.evaluateWithin budget)
    (handler site) (s, state)
  have hstart : Journal.Clear [.entry (site.startEntry s.active.depth)] :=
    List.forall_mem_singleton.2 (by simp [Event.Warns, OptionSite.startEntry])
  have hend (status : String) : Journal.Clear [.entry (site.endEntry s.active.depth status)] :=
    List.forall_mem_singleton.2 (by simp [Event.Warns, OptionSite.endEntry])
  rw [dispatch_apply]
  dsimp only
  generalize setup.run (setup.evaluateWithin budget) (handler site) (s, state) = outcome
    at hrun hsurface hraised ⊢
  obtain ⟨result, ⟨t, left⟩, journal⟩ := outcome
  have hwork : Conclusive ([.entry (site.startEntry s.active.depth)] ++ journal) :=
    (conclusive_of_quiet hstart.quiet).append hrun (.inl hstart.quiet)
  cases result with
  | ok _ => exact hwork.append (conclusive_of_quiet (hend "ok").quiet) (.inr (hend "ok"))
  | error error =>
    have hsettled : Conclusive ([.entry (site.endEntry s.active.depth "error")] ++
        (setup.settle site error t).journal) :=
      (conclusive_of_quiet (hend _).quiet).append (settle_conclusive site error t)
        (.inl (hend _).quiet)
    refine hwork.append hsettled ?_
    cases hlast : journal.lastRaised with
    | none => exact .inl (by rw [Journal.lastRaised_append, hlast, hstart.quiet, Option.or_none])
    | some text =>
      obtain ⟨_, fault, heq, hfault, rfl⟩ := hsurface text hlast
      cases heq
      have hknown : t.raised = some fault.message := by simpa [hlast] using hraised
      rw [settle_of_known hfault hknown]
      exact .inr (by simpa using hend "error")

theorem evalOption_conclusive (sectionName stored value : String) (state : SectionState)
    (s : Session) :
    (setup.evalOption (setup.evaluateWithin budget) sectionName stored value state
      s).journal.Conclusive := by
  cases hresolve : setup.registry.resolveKey sectionName stored with
  | error fault =>
    rw [evalOption_of_error setup hresolve]
    exact report_conclusive _ fault s
  | ok resolved =>
    cases hhandler : (resolved.handler <|> setup.registry.generic) with
    | some handler =>
      rw [evalOption_of_handler setup hresolve hhandler]
      exact dispatch_conclusive hpass hunwarning hnested
        (Registry.holds_of_resolveKey hresolve hhandler) _ state s
    | none =>
      rw [evalOption_of_none setup hresolve hhandler]
      exact List.pairwise_singleton _ _

theorem evalOptions_conclusive (sectionName : String) (options : List (String × String))
    (state : SectionState) (s : Session) :
    (setup.evalOptions (setup.evaluateWithin budget) sectionName options state
      s).journal.Conclusive := by
  induction options generalizing state s with
  | nil => exact List.Pairwise.nil
  | cons option rest ih =>
    have hfirst := evalOption_conclusive hpass hunwarning hnested sectionName option.1 option.2
      state s
    have hsurface := evalOption_surfaces (evaluateWithin_surfaces hpass budget) hpass sectionName
      option.1 option.2 state s
    rw [evalOptions, Journaled.bind_apply]
    split
    · next next hnext =>
      exact hfirst.append (ih next _) (.inl (hsurface.lastRaised_eq_none hnext))
    · dsimp only
      exact hfirst

theorem evalBody_conclusive (name : String) (s : Session) :
    (setup.evalBody (setup.evaluateWithin budget) name s).journal.Conclusive := by
  cases hoptions : setup.document.options? name with
  | some options =>
    rw [evalBody_of_some setup hoptions]
    exact evalOptions_conclusive hpass hunwarning hnested name options.entries ∅ s
  | none =>
    rw [evalBody_of_none setup hoptions]
    exact report_conclusive _ _ s

theorem visit_conclusive (name : String) (s : Session) :
    (setup.visit (setup.evaluateWithin budget) name s).journal.Conclusive := by
  cases hcache : s.cache.get? name with
  | some state =>
    rw [visit_of_cached setup hcache]
    exact conclusive_of_quiet (clear_debugNotice _ _).quiet
  | none =>
    cases hpush : s.active.push name with
    | error fault =>
      rw [visit_of_active setup hcache hpush]
      exact List.pairwise_pair.2 fun _ => id
    | ok active =>
      have hopening : (setup.opening name active.depth).Clear :=
        List.forall_mem_cons.2 ⟨by simp [Event.Warns], clear_debugNotice _ _⟩
      have hexit (keys : Nat) : Journal.Clear [.entry (exitEntry name active.depth keys)] :=
        List.forall_mem_singleton.2 (by simp [Event.Warns, exitEntry])
      have hbody := evalBody_conclusive hpass hunwarning hnested name { s with active }
      have hentered := (conclusive_of_quiet hopening.quiet).append hbody (.inl hopening.quiet)
      rw [visit_of_entered setup hcache hpush]
      dsimp only
      split
      · exact hentered
      · exact hentered.append (conclusive_of_quiet (hexit _).quiet) (.inr (hexit _))

end

section

variable (hpass : setup.registry.PassesOn) (hunwarning : setup.registry.Only Request.Unwarning)

include hpass

theorem evaluateEach_surfaces (names : List String) (s : Session) :
    (setup.evaluateEach names s).Surfaces some := by
  induction names generalizing s with
  | nil => exact Outcome.surfaces_of_quiet rfl
  | cons name rest ih =>
    have hfirst : (setup.evaluate name s).Surfaces some := evaluateWithin_surfaces hpass _ name s
    rw [evaluateEach_cons]
    dsimp only
    cases hresult : (setup.evaluate name s).result with
    | ok state => exact (ih _).after_quiet (hfirst.lastRaised_eq_none hresult)
    | error fault => simpa [hresult, Except.map] using hfirst.map fun _ => ()

include hunwarning

/-- Induction on the budget. -/
theorem evaluateWithin_conclusive (budget : Nat) (name : String) (s : Session) :
    (setup.evaluateWithin budget name s).journal.Conclusive := by
  induction budget generalizing name s with
  | zero => exact List.Pairwise.nil
  | succ budget ih => exact visit_conclusive hpass hunwarning ih name s

theorem evaluateEach_conclusive (names : List String) (s : Session) :
    (setup.evaluateEach names s).journal.Conclusive := by
  induction names generalizing s with
  | nil => exact List.Pairwise.nil
  | cons name rest ih =>
    have hsurface : (setup.evaluate name s).Surfaces some := evaluateWithin_surfaces hpass _ name s
    have hfirst : (setup.evaluate name s).journal.Conclusive :=
      evaluateWithin_conclusive hpass hunwarning _ name s
    rw [evaluateEach_cons]
    dsimp only
    cases hresult : (setup.evaluate name s).result with
    | ok state => exact hfirst.append (ih _) (.inl (hsurface.lastRaised_eq_none hresult))
    | error fault => exact hfirst

end

end Setup

end IniCompose
