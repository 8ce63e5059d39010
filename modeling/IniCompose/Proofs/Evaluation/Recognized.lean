import IniCompose.Proofs.Evaluation.Reported
import IniCompose.Proofs.Evaluation.Routing
import IniCompose.Proofs.Fault.Text

/-!
# Faults that are recognized by their texts

A fault that comes out of a handler is taken for the one that was raised last if its text is the
same. It need not be the same fault: texts quote what they are given, and do not tell where a
quotation ends. However, faults of different classes never have the same text, whatever they quote,
so what is recognized is of the class of the fault that was raised last, and as severe.
-/
namespace IniCompose

namespace Journal

variable {journal : Journal}

/-- The entry of the fault shows it as raised, and no later entry shows another one. -/
def RaisedLast (journal : Journal) (fault : Fault) : Prop :=
  ∃ before severity depth after,
    journal = before ++ .entry (Policy.faultEntry severity .raise fault depth) :: after ∧
      Journal.lastRaised after = none

theorem RaisedLast.lastRaised {fault : Fault} (h : journal.RaisedLast fault) :
    journal.lastRaised = some fault.message := by
  obtain ⟨before, severity, depth, after, rfl, hafter⟩ := h
  rw [lastRaised_append, lastRaised_cons, hafter, Event.raised?_faultEntry]
  rfl

/-- The event that tells the text raised last is the last one that tells any. Induction on the
journal. -/
theorem exists_last {text : String} (h : journal.lastRaised = some text) :
    ∃ (before : Journal) (event : Event) (after : Journal), journal = before ++ event :: after ∧
      event.raised? = some text ∧ after.lastRaised = none := by
  induction journal with
  | nil => cases h
  | cons event rest ih =>
    rw [lastRaised_cons] at h
    cases hrest : Journal.lastRaised rest with
    | none =>
      rw [hrest, Option.none_or] at h
      exact ⟨[], event, rest, rfl, h, hrest⟩
    | some last =>
      rw [hrest, Option.some_or] at h
      obtain ⟨before, later, after, rfl, hlater, hafter⟩ := ih (hrest.trans h)
      exact ⟨event :: before, later, after, rfl, hlater, hafter⟩

end Journal

namespace Setup

variable {setup : Setup} {allowed : Request → Prop}

/-- The text that a run remembers is the text of a fault that is on its record. -/
theorem exists_raisedLast {journal : Journal}
    (h : ∀ event ∈ journal, setup.Reports allowed event) {text : String}
    (hraised : journal.lastRaised = some text) :
    ∃ fault, journal.RaisedLast fault ∧ fault.message = text := by
  obtain ⟨before, event, after, rfl, hevent, hafter⟩ := Journal.exists_last hraised
  obtain ⟨severity, fault, depth, rfl, hmessage⟩ := (h event (by simp)).exists_fault hevent
  exact ⟨fault, ⟨before, severity, depth, after, rfl, hafter⟩, hmessage⟩

/-! ## What has been reported when a handler is called -/

/-- Whatever handlers do, a run reports messages, steps, faults, and what the handlers ask for. -/
abbrev Reported (setup : Setup) (journal : Journal) : Prop :=
  ∀ event ∈ journal, setup.Reports (fun _ => True) event

theorem reported_evaluateWithin (budget : Nat) (name : String) (s : Session) :
    setup.Reported (setup.evaluateWithin budget name s).journal :=
  reports_evaluateWithin setup.registry.only_true budget name s

/-- Induction on the requests that are answered before the one for the section. -/
theorem Asks.reported {budget : Nat} {program : Program Unit} {s : Session × SectionState}
    {target : String} {t : Session} {told : Journal}
    (h : setup.Asks (setup.evaluateWithin budget) program s target t told) :
    setup.Reported told := by
  induction h with
  | now => exact List.forall_mem_nil _
  | @later request _ s _ _ _ _ _ _ hanswer _ ih =>
    have hfirst := @reports_answer setup (fun _ => True) _ (setup.reported_evaluateWithin budget)
      request trivial s
    rw [hanswer] at hfirst
    exact List.forall_mem_append.2 ⟨hfirst, ih⟩

theorem reported_start (call : Call) : setup.Reports (fun _ => True) call.start :=
  .step (by simp [OptionSite.startEntry])

/-- Induction on the way to the call: the options before it, and the requests of the handlers around
it. -/
theorem Calls.reported {budget : Nat} {name : String} {s : Session} {heard : Journal} {call : Call}
    (h : setup.Calls budget name s heard call) (hheard : setup.Reported heard) :
    setup.Reported call.heard := by
  induction h with
  | @own budget name s heard active options before option rest state t told _ _ _ _ _ _ hbefore =>
    have hopening : setup.Reported (setup.opening name active.depth) := reports_opening _ _
    have htold := reports_evalOptions (setup.reported_evaluateWithin budget)
      setup.registry.only_true name before ∅ { s with active }
    rw [hbefore] at htold
    exact List.forall_mem_append.2 ⟨List.forall_mem_append.2 ⟨hheard, hopening⟩, htold⟩
  | inner _ hasks _ ih ihdeeper =>
    apply ihdeeper
    exact List.forall_mem_append.2
      ⟨ih hheard, List.forall_mem_cons.2 ⟨reported_start _, hasks.reported⟩⟩

theorem Calls.reported_told {budget : Nat} {name : String} {s : Session} {heard : Journal}
    {call : Call} (h : setup.Calls budget name s heard call) (hheard : setup.Reported heard) :
    setup.Reported (call.told setup) := by
  have hwork : setup.Reported (call.work setup).journal :=
    reports_run (setup.reported_evaluateWithin call.budget) (Program.only_true _) _
  exact List.forall_mem_append.2
    ⟨h.reported hheard, List.forall_mem_cons.2 ⟨reported_start call, hwork⟩⟩

end Setup

/-- The fault has the text that the run remembers when the handler of the call ends, and so would be
taken for the one that was raised last. -/
def Call.Recognizes (call : Call) (setup : Setup) (fault : Fault) : Prop :=
  (call.work setup).state.1.raised = some fault.message

namespace Engine

variable {engine : Engine} {call : Call}

theorem Calls.reported_told (h : engine.Calls call) :
    engine.toSetup.Reported (call.told engine.toSetup) := by
  cases h with
  | evaluate _ hcall => exact hcall.reported_told (List.forall_mem_nil _)
  | @evaluateAll before name _ s told _ _ hbefore hcall =>
    have htold := Setup.reports_evaluateEach engine.registry.only_true before
      { cache := engine.cache }
    rw [hbefore] at htold
    exact hcall.reported_told htold

/-- A run remembers the fault that its record shows as raised last. -/
theorem Calls.recognizes_iff (h : engine.Calls call) {fault : Fault} :
    call.Recognizes engine.toSetup fault ↔
      (call.told engine.toSetup).lastRaised = some fault.message := by
  obtain ⟨name, s, heard, hcall, hraised⟩ := h.exists_run
  rw [Call.Recognizes, Setup.raised_work (hcall.raised hraised)]

/-- Faults with the same text are of the same class, and so equally severe. In every run, a fault
that is recognized is therefore of the class of the fault that was raised last, and as severe; and a
fault of another class or severity, if a handler fails with it, is put to the policy. -/
theorem recognition_keeps_class :
    (∀ fault other : Fault, fault.message = other.message →
      fault.kind = other.kind ∧ fault.severity = other.severity) ∧
    ∀ (engine : Engine) (call : Call), engine.Calls call → ∀ fault : Fault,
      (call.Recognizes engine.toSetup fault →
        ∃ raised, (call.told engine.toSetup).RaisedLast raised ∧ raised.message = fault.message ∧
          raised.kind = fault.kind ∧ raised.severity = fault.severity) ∧
      ∀ raised, (call.told engine.toSetup).RaisedLast raised →
        raised.kind ≠ fault.kind ∨ raised.severity ≠ fault.severity →
        ∀ error, (call.work engine.toSetup).result = .error error → error.fault? = some fault →
          call.PutToPolicy engine.toSetup fault := by
  have hclass (fault other : Fault) (h : fault.message = other.message) :
      fault.kind = other.kind ∧ fault.severity = other.severity :=
    ⟨Fault.kind_eq_of_message_eq h, Fault.severity_eq_of_message_eq h⟩
  refine ⟨hclass, fun engine call hcall fault => ⟨fun hknown => ?_, ?_⟩⟩
  · obtain ⟨raised, hlast, hmessage⟩ :=
      Setup.exists_raisedLast hcall.reported_told (hcall.recognizes_iff.1 hknown)
    obtain ⟨hkind, hseverity⟩ := hclass raised fault hmessage
    exact ⟨raised, hlast, hmessage, hkind, hseverity⟩
  · intro raised hlast hother error herror hfault
    obtain ⟨name, s, heard, hrun, -⟩ := hcall.exists_run
    apply hrun.putToPolicy herror hfault
    intro hknown
    have htext : some raised.message = some fault.message :=
      hlast.lastRaised.symm.trans (hcall.recognizes_iff.1 hknown)
    obtain ⟨hkind, hseverity⟩ := hclass raised fault (Option.some.inj htext)
    rcases hother with hother | hother
    · exact hother hkind
    · exact hother hseverity

/-- Two different faults may have the same text. A handler's own fault is recognized after one of
its text, and put to the policy after one of another class. -/
theorem recognition_keeps_class_probing :
    (∃ fault other : Fault, fault ≠ other ∧ fault.message = other.message ∧
      fault.kind = other.kind ∧ fault.severity = other.severity) ∧
    (∃ call, (probing (malformed "m")).Calls call ∧
      call.Recognizes (probing (malformed "m")).toSetup (malformed "m") ∧
      ∃ raised, (call.told (probing (malformed "m")).toSetup).RaisedLast raised ∧
        raised.kind = "option-format" ∧ raised.severity = .minor) ∧
    ∃ call raised, (probing (.sectionNotFound "A")).Calls call ∧
      (call.told (probing (.sectionNotFound "A")).toSetup).RaisedLast raised ∧
      raised.kind ≠ (malformed "m").kind ∧
      call.PutToPolicy (probing (.sectionNotFound "A")).toSetup (malformed "m") := by
  obtain ⟨hclass, hrun⟩ := recognition_keeps_class
  refine ⟨?_, ?_, ?_⟩
  · have hmessage : (Fault.optionFormat "A" "k" "m' in section [B]: n").message =
        (Fault.optionFormat "B" "k' in section [A]: m" "n").message := by decide
    exact ⟨_, _, by decide, hmessage, hclass _ _ hmessage⟩
  · obtain ⟨call, hcall, -, -, hraised, -⟩ := exists_call_probing (malformed "m")
    have hcalls : (probing (malformed "m")).Calls call := .evaluate rfl hcall
    obtain ⟨raised, hlast, -, hkind, hseverity⟩ := (hrun _ call hcalls (malformed "m")).1 hraised
    exact ⟨call, hcalls, hraised, raised, hlast, hkind, hseverity⟩
  · obtain ⟨call, hcall, -, herror, hraised, -⟩ := exists_call_probing (.sectionNotFound "A")
    have hcalls : (probing (.sectionNotFound "A")).Calls call := .evaluate rfl hcall
    obtain ⟨raised, hlast, -, hkind, -⟩ :=
      (hrun _ call hcalls (.sectionNotFound "A")).1 hraised
    have hother : raised.kind ≠ (malformed "m").kind := by
      rw [hkind]
      decide
    exact ⟨call, raised, hcalls, hlast, hother,
      (hrun _ call hcalls _).2 raised hlast (.inl hother) _ herror rfl⟩

end Engine

end IniCompose
