import IniCompose.Proofs.Evaluation.Brackets
import Mathlib.Data.List.Perm.Subperm

/-!
# Relations that every evaluation keeps

An evaluation changes its session in few ways: it reports, it remembers the fault that it raises, it
enters sections and leaves them. A relation between the session before, the journal and the session
after that holds of these steps and of their succession holds of every evaluation, whatever the
handlers do. Three instances: the active sections are left as they were found, the remembered fault
is the one that the journal shows as raised last, and what is cached stays cached.
-/
namespace IniCompose

theorem Except.error_of_map_eq_error {ε α β : Type} {f : α → β} {x : Except ε α} {e : ε}
    (h : x.map f = .error e) : x = .error e := by
  cases x with
  | ok a => cases h
  | error e' => cases h; rfl

theorem Except.ok_of_map_eq_ok {ε α β : Type} {f : α → β} {x : Except ε α} {b : β}
    (h : x.map f = .ok b) : ∃ a, x = .ok a ∧ f a = b := by
  cases x with
  | ok a => exact ⟨a, rfl, Except.ok.inj h⟩
  | error e => cases h

/-! ## Raised faults in a journal -/

/-- The text of the fault that an entry of the engine shows as raised. -/
def Event.raised? : Event → Option String
  | .entry logged =>
    if logged.kind = .warning ∧ logged.details.get? "decision" = some Decision.raise.label then
      logged.details.get? "message"
    else none
  | _ => none

/-- The text of the fault that was raised last. -/
def Journal.lastRaised (journal : Journal) : Option String :=
  (journal.filterMap Event.raised?).getLast?

@[simp] theorem Journal.lastRaised_nil : Journal.lastRaised [] = none := rfl

@[simp] theorem Journal.lastRaised_append (first second : Journal) :
    Journal.lastRaised (first ++ second) = second.lastRaised.or first.lastRaised := by
  simp [lastRaised, List.getLast?_append]

@[simp] theorem Journal.lastRaised_singleton (event : Event) :
    Journal.lastRaised [event] = event.raised? := by
  cases h : event.raised? <;> simp [lastRaised, h]

@[simp] theorem Event.raised?_message (verbosity : Verbosity) (text : String) :
    Event.raised? (.message verbosity text) = none := rfl

theorem Journal.lastRaised_cons (event : Event) (rest : Journal) :
    Journal.lastRaised (event :: rest) = rest.lastRaised.or event.raised? := by
  rw [← List.singleton_append, lastRaised_append, lastRaised_singleton]

theorem Event.raised?_faultEntry (severity : Severity) (decision : Decision) (fault : Fault)
    (depth : Nat) :
    Event.raised? (.entry (Policy.faultEntry severity decision fault depth)) =
      if decision = .raise then some fault.message else none := by
  cases decision <;>
    simp [Event.raised?, Policy.faultEntry, OrderedMap.ofList, Decision.label]

theorem Event.raised?_eq_none_of_kind {entry : Trace.Entry} (h : entry.kind ≠ .warning) :
    Event.raised? (.entry entry) = none := by
  simp [Event.raised?, h]

/-! ## The principle -/

/-- A relation that holds of the steps of an evaluation and of their succession. -/
structure Setup.Kept (setup : Setup) (R : Session → Journal → Session → Prop) : Prop where
  refl : ∀ s, R s [] s
  trans : ∀ {s t u j k}, R s j t → R t k u → R s (j ++ k) u
  tell : ∀ s event, event.raised? = none → R s [event] s
  raise : ∀ s event text, event.raised? = some text → R s [event] { s with raised := some text }
  /-- Entering a section that is neither cached nor active, and leaving it with or without a
  state. -/
  enter : ∀ {s t name active j}, s.cache.get? name = none → s.active.push name = .ok active →
    R { s with active } j t → ∀ state? : Option SectionState,
      (state?.isSome → setup.document.hasSection name) →
        R s j (Setup.leave name { t with active := t.active.pop name } state?)

theorem Setup.hasSection_iff {setup : Setup} {name : String} :
    setup.document.hasSection name ↔ ∃ options, setup.document.options? name = some options := by
  simp [Document.hasSection, Document.options?, OrderedMap.contains, Option.isSome_iff_exists]

/-- Sections that exist and are distinct are no more than there are sections. -/
theorem Setup.depth_le_size {setup : Setup} {active : ActiveSections}
    (h : ∀ name ∈ active.stack, setup.document.hasSection name) :
    active.depth ≤ setup.document.size := by
  have hsubset : active.stack ⊆ setup.document.names := by
    intro name hname
    exact OrderedMap.contains_iff_mem_keys.1 (h name hname)
  have hsize : setup.document.names.length = setup.document.size :=
    OrderedMap.length_keys setup.document.sections
  exact hsize ▸ (List.subperm_of_subset active.nodup hsubset).length_le

namespace Setup.Kept

variable {setup : Setup} {R : Session → Journal → Session → Prop}

theorem quiet (h : setup.Kept R) {journal : Journal} (s : Session)
    (hquiet : ∀ event ∈ journal, event.raised? = none) : R s journal s := by
  induction journal with
  | nil => exact h.refl s
  | cons event rest ih =>
    have hfirst := h.tell s event (hquiet event (by simp))
    have hrest := ih fun e he => hquiet e (by simp [he])
    exact h.trans hfirst hrest

theorem announcement_quiet (policy : Policy) (severity : Severity) (fault : Fault) :
    ∀ event ∈ policy.announcement severity fault, event.raised? = none := by
  intro event hevent
  obtain ⟨verbosity, text, rfl⟩ := Policy.mem_announcement hevent
  exact Event.raised?_message verbosity text

theorem debugNotice_quiet (setup : Setup) (level : UInt8) (text : String) :
    ∀ event ∈ setup.debugNotice level text, event.raised? = none := by
  intro event hevent
  obtain ⟨verbosity, message, rfl⟩ := setup.mem_debugNotice hevent
  exact Event.raised?_message verbosity message

theorem opening_quiet (setup : Setup) (name : String) (depth : Nat) :
    ∀ event ∈ setup.opening name depth, event.raised? = none := by
  simp only [opening, List.mem_cons, forall_eq_or_imp]
  exact ⟨Event.raised?_eq_none_of_kind (by simp), debugNotice_quiet _ _ _⟩

/-- Only the body of a section that exists yields a state. -/
theorem hasSection_of_evalBody {nested : Evaluator} {name : String} {s : Session}
    {state? : Option SectionState} (h : (setup.evalBody nested name s).result = .ok state?)
    (hsome : state?.isSome) : setup.document.hasSection name := by
  cases hoptions : setup.document.options? name with
  | some options => simpa [Document.options?, Document.hasSection, OrderedMap.contains] using
      Option.isSome_of_eq_some hoptions
  | none =>
    rw [evalBody_of_none setup hoptions, report_apply] at h
    split at h
    · cases h
    · cases h
      cases hsome

/-- What an evaluation may do at once it may do step by step: a bracket is its two entries and what
is inside. -/
theorem bracketed (h : setup.Kept R) : setup.Bracketed R where
  refl := h.refl
  trans := h.trans
  tell s event hplain := by
    refine h.tell s event ?_
    cases event with
    | entry logged =>
      exact Event.raised?_eq_none_of_kind (by simp [show logged.kind = _ from hplain])
    | custom _ | message _ _ | note _ => rfl
  passOver s severity decision fault hdecision := by
    refine h.tell s _ ?_
    rw [Event.raised?_faultEntry, if_neg hdecision]
  raise s severity fault := by
    refine h.raise s _ _ ?_
    rw [Event.raised?_faultEntry, if_pos rfl]
  handle {s t j} site status hinner := by
    have hstart := h.tell s (.entry (site.startEntry s.active.depth))
      (Event.raised?_eq_none_of_kind (by simp [OptionSite.startEntry]))
    have hend := h.tell t (.entry (site.endEntry s.active.depth status))
      (Event.raised?_eq_none_of_kind (by simp [OptionSite.endEntry]))
    exact h.trans (h.trans hstart hinner) hend
  abandon _ hcache hpush _ hbody :=
    h.trans (h.quiet _ (opening_quiet _ _ _)) (h.enter hcache hpush hbody none (by simp))
  complete {_ s t name active j state?} _ hcache hpush hresult hbody := by
    have hexists := hasSection_of_evalBody (congrArg Outcome.result hresult)
    have hleave := h.enter hcache hpush hbody state? hexists
    have hexit := h.tell (leave name { t with active := t.active.pop name } state?)
      (.entry (exitEntry name active.depth (state?.getD ∅).size))
      (Event.raised?_eq_none_of_kind (by simp [exitEntry]))
    exact h.trans (h.trans (h.quiet s (opening_quiet _ _ _)) hleave) hexit

end Setup.Kept

namespace Setup

variable (setup : Setup)

@[simp] theorem active_leave (name : String) (s : Session) (state? : Option SectionState) :
    (leave name s state?).active = s.active := by cases state? <;> rfl

@[simp] theorem raised_leave (name : String) (s : Session) (state? : Option SectionState) :
    (leave name s state?).raised = s.raised := by cases state? <;> rfl

theorem get?_leave_of_ne {name other : String} (h : other ≠ name) (s : Session)
    (state? : Option SectionState) :
    (leave name s state?).cache.get? other = s.cache.get? other := by
  cases state? with
  | none => rfl
  | some state => simp [leave, h]

/-! ## The remembered fault -/

theorem kept_raised : setup.Kept fun s j t => t.raised = j.lastRaised.or s.raised where
  refl _ := by simp
  trans hfirst hsecond := by simp [hfirst, hsecond, Option.or_assoc]
  tell _ _ hquiet := by simp [hquiet]
  raise _ _ _ hraised := by simp [hraised]
  enter := by
    intro s t name active j _ _ hbody state? _
    simpa using hbody

theorem bracketed_raised :
    setup.Bracketed fun s j t => t.raised = j.lastRaised.or s.raised := setup.kept_raised.bracketed

section

variable {setup} {nested : Evaluator} {s : Session} {fault : Fault}

theorem raised_of_report {severity : Severity} {reported : Fault}
    (h : (setup.report severity reported s).result = .error fault) :
    (setup.report severity reported s).state.raised = some fault.message := by
  rw [report_apply] at h ⊢
  by_cases hraise : setup.policy.decision severity = .raise
  · simp only [hraise, if_true, Except.error.injEq] at h ⊢
    rw [h]
  · simp [hraise] at h

theorem raised_of_settle {site : OptionSite} {error : HandlerError}
    (h : (setup.settle site error s).result = .error fault) :
    (setup.settle site error s).state.raised = some fault.message := by
  rw [settle_apply] at h ⊢
  split at h
  · next hraised =>
    obtain ⟨known, herror, hknown⟩ := hraised
    simp only [Except.error.injEq] at h
    subst h
    simp [faultOf, herror, hknown]
  · next hraised =>
    rw [if_neg hraised]
    exact raised_of_report h

theorem raised_of_dispatch {handler : Handler} {site : OptionSite} {state : SectionState}
    (h : (setup.dispatch nested handler site state s).result = .error fault) :
    (setup.dispatch nested handler site state s).state.raised = some fault.message := by
  rw [dispatch_apply] at h ⊢
  cases hrun : (setup.run nested (handler site) (s, state)).result with
  | ok a => simp [hrun] at h
  | error error =>
    simp only [hrun] at h ⊢
    exact raised_of_settle (Except.error_of_map_eq_error h)

theorem raised_of_evalOption {sectionName stored value : String} {state : SectionState}
    (h : (setup.evalOption nested sectionName stored value state s).result = .error fault) :
    (setup.evalOption nested sectionName stored value state s).state.raised =
      some fault.message := by
  cases hresolve : setup.registry.resolveKey sectionName stored with
  | error unresolved =>
    rw [evalOption_of_error setup hresolve] at h ⊢
    exact raised_of_report (Except.error_of_map_eq_error h)
  | ok resolved =>
    cases hhandler : (resolved.handler <|> setup.registry.generic) with
    | some handler =>
      rw [evalOption_of_handler setup hresolve hhandler] at h ⊢
      exact raised_of_dispatch h
    | none =>
      rw [evalOption_of_none setup hresolve hhandler] at h
      cases h

theorem raised_of_evalOptions {sectionName : String} {options : List (String × String)}
    {state : SectionState}
    (h : (setup.evalOptions nested sectionName options state s).result = .error fault) :
    (setup.evalOptions nested sectionName options state s).state.raised = some fault.message := by
  induction options generalizing state s with
  | nil => cases h
  | cons option rest ih =>
    rw [evalOptions, Journaled.bind_apply] at h ⊢
    cases hfirst : (setup.evalOption nested sectionName option.1 option.2 state s).result with
    | ok next =>
      simp only [hfirst, Outcome.result_after, Outcome.state_after] at h ⊢
      exact ih h
    | error first =>
      simp only [hfirst, Except.error.injEq] at h ⊢
      subst h
      exact raised_of_evalOption hfirst

/-- A section that cannot be evaluated leaves its fault as the remembered one. -/
theorem raised_of_visit {name : String} (h : (setup.visit nested name s).result = .error fault) :
    (setup.visit nested name s).state.raised = some fault.message := by
  cases hcache : s.cache.get? name with
  | some state => simp [visit_of_cached setup hcache] at h
  | none =>
    cases hpush : s.active.push name with
    | error cycle =>
      rw [visit_of_active setup hcache hpush] at h ⊢
      cases h
      rfl
    | ok active =>
      rw [visit_of_entered setup hcache hpush] at h ⊢
      cases hbody : (setup.evalBody nested name { s with active }).result with
      | ok state? => simp [hbody] at h
      | error inner =>
        simp only [hbody, Except.error.injEq] at h ⊢
        subst h
        cases hoptions : setup.document.options? name with
        | some options =>
          rw [evalBody_of_some setup hoptions] at hbody ⊢
          exact raised_of_evalOptions (Except.error_of_map_eq_error hbody)
        | none =>
          rw [evalBody_of_none setup hoptions] at hbody ⊢
          exact raised_of_report (Except.error_of_map_eq_error hbody)

end

/-! ## The cache -/

/-- What is cached stays cached, and a section is not cached while it is active. -/
structure Grows (s t : Session) : Prop where
  active : t.active = s.active
  keeps : ∀ {name state}, s.cache.get? name = some state → t.cache.get? name = some state
  spares : ∀ {name}, name ∈ s.active.stack → s.cache.get? name = none → t.cache.get? name = none

theorem Grows.contains {s t : Session} (h : Grows s t) {name : String}
    (hname : s.cache.contains name) :
    t.cache.contains name := by
  obtain ⟨state, hstate⟩ := Option.isSome_iff_exists.1 hname
  exact Option.isSome_of_eq_some (h.keeps hstate)

theorem kept_grows : setup.Kept fun s _ t => Grows s t where
  refl _ := ⟨rfl, id, fun _ h => h⟩
  trans hfirst hsecond := {
    active := hsecond.active.trans hfirst.active
    keeps := fun h => hsecond.keeps (hfirst.keeps h)
    spares := fun hname h => hsecond.spares (hfirst.active ▸ hname) (hfirst.spares hname h) }
  tell _ _ _ := ⟨rfl, id, fun _ h => h⟩
  raise _ _ _ _ := ⟨rfl, id, fun _ h => h⟩
  enter := by
    intro s t name active j hcache hpush hbody state? _
    obtain ⟨hname, hstack⟩ := ActiveSections.push_eq_ok_iff.1 hpush
    refine ⟨?_, ?_, ?_⟩
    · simp [show t.active = active from hbody.active, ActiveSections.pop_push hpush]
    · intro other state hother
      have hne : other ≠ name := by rintro rfl; simp [hcache] at hother
      rw [get?_leave_of_ne hne]
      exact hbody.keeps hother
    · intro other hother hnone
      have hne : other ≠ name := by rintro rfl; exact hname hother
      rw [get?_leave_of_ne hne]
      exact hbody.spares (by simp [hstack, hother]) hnone

theorem bracketed_grows : setup.Bracketed fun s _ t => Grows s t := setup.kept_grows.bracketed

theorem grows_evaluateWithin (budget : Nat) (name : String) (s : Session) :
    Grows s (setup.evaluateWithin budget name s).state :=
  setup.bracketed_grows.evaluateWithin budget name s

end Setup

end IniCompose
