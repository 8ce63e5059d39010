import IniCompose.Proofs.Evaluation.Lockstep
import IniCompose.Proofs.Fault.Text
import Mathlib.Logic.Basic

/-!
# Sections evaluated by themselves

What a section comes to by itself: evaluated without a cache, without regard to cycles, and with
nothing remembered of other sections. Requests are nested as deep as it takes; a section that
requests itself, directly or through others, comes to nothing. Where handlers can tell nothing of
the run around them, this is what evaluations in every session should give.
-/
namespace IniCompose

namespace Setup

variable {setup : Setup}

/-! ## The remembered fault -/

/-- The request tells nothing of the run around the section, and if it reports a fault as more
severe than the faults of its class are, the policy makes no difference. -/
def Discreet (setup : Setup) : Request → Prop
  | .depth => False
  | .report severity fault =>
    setup.policy.decision severity = .raise → setup.policy.decision fault.severity = .raise
  | _ => True

/-- Where minor faults are raised, faults of every class are. -/
theorem discreet_report_minor (fault : Fault) : setup.Discreet (.report .minor fault) := by
  intro hminor
  have hlevel := Severity.decision_eq_raise_iff.1 hminor
  refine Severity.decision_eq_raise_iff.2 (Nat.le_trans ?_ hlevel)
  cases fault <;> simp [Fault.severity, Severity.raisedFrom]

theorem discreet_standard : Registry.standard.Only setup.Discreet :=
  Registry.only_standard trivial (fun _ => trivial) (fun _ => trivial) discreet_report_minor
    fun _ => trivial

/-- Faults with the remembered text are raised anyway. -/
def Warrants (setup : Setup) (s : Session) : Prop :=
  ∀ fault : Fault, s.raised = some fault.message → setup.policy.decision fault.severity = .raise

theorem warrants_of_forgotten {s : Session} (h : s.raised = none) : setup.Warrants s := by
  intro fault hfault
  simp [h] at hfault

theorem warrants_raised {fault : Fault} (h : setup.policy.decision fault.severity = .raise)
    (s : Session) : setup.Warrants { s with raised := some fault.message } := by
  intro other hother
  rwa [Fault.severity_eq_of_message_eq (Option.some.inj hother).symm]

theorem state_report_of_raise {severity : Severity}
    (h : setup.policy.decision severity = .raise) (fault : Fault) (s : Session) :
    (setup.report severity fault s).state = { s with raised := some fault.message } := by
  rw [report_apply]
  simp [h]

theorem state_report_of_not_raise {severity : Severity}
    (h : setup.policy.decision severity ≠ .raise) (fault : Fault) (s : Session) :
    (setup.report severity fault s).state = s := by
  rw [report_apply]
  simp [h]

theorem result_report (severity : Severity) (fault : Fault) (s : Session) :
    (setup.report severity fault s).result =
      if setup.policy.decision severity = .raise then .error fault else .ok () := by
  rw [report_apply]

/-- A property that a session keeps when a fault that is raised anyway is remembered. -/
theorem steady_of_raised {wanted : Session → Prop}
    (h : ∀ {s} {fault : Fault}, wanted s → setup.policy.decision fault.severity = .raise →
      wanted { s with raised := some fault.message }) :
    setup.Steady setup.Discreet wanted where
  report {s} hs severity fault hallowed := by
    by_cases hraise : setup.policy.decision severity = .raise
    · rw [state_report_of_raise hraise]
      refine h hs ?_
      rcases hallowed with hdiscreet | rfl
      · exact hdiscreet hraise
      · exact hraise
    · rwa [state_report_of_not_raise hraise]
  settle {s} hs site error := by
    rw [settle_apply]
    split
    · exact hs
    · by_cases hraise : setup.policy.decision (faultOf site error).severity = .raise
      · rw [state_report_of_raise hraise]
        exact h hs hraise
      · rwa [state_report_of_not_raise hraise]

/-- With a remembered fault that is raised anyway, a handler's error is raised if its class is. -/
theorem result_settle {s : Session} (h : setup.Warrants s) (site : OptionSite)
    (error : HandlerError) :
    (setup.settle site error s).result =
      if setup.policy.decision (faultOf site error).severity = .raise
      then .error (faultOf site error) else .ok () := by
  rw [settle_apply]
  split
  · next hknown =>
    obtain ⟨fault, hfault, hraised⟩ := hknown
    have hclass : setup.policy.decision (faultOf site error).severity = .raise := by
      simpa [faultOf, hfault] using h fault hraised
    rw [if_pos hclass]
  · rw [result_report]

theorem steady_warrants : setup.Steady setup.Discreet setup.Warrants :=
  steady_of_raised fun _ hraise => warrants_raised hraise _

end Setup

/-! ## Entered sections -/

/-- The event is the entry for entering a section. -/
def Event.Enters : Event → Prop
  | .entry logged => logged.kind = .sectionEntry
  | _ => False

/-- No section has been entered. -/
def Journal.Finished (journal : Journal) : Prop := ∀ event ∈ journal, ¬ event.Enters

namespace Journal

theorem finished_nil : Finished [] := by simp [Finished]

theorem finished_append {first second : Journal} :
    Finished (first ++ second) ↔ first.Finished ∧ second.Finished := by
  simp only [Finished, List.mem_append, or_imp, forall_and]

theorem finished_cons {event : Event} {rest : Journal} :
    Finished (event :: rest) ↔ ¬ event.Enters ∧ rest.Finished := by simp [Finished]

end Journal

namespace Setup

variable {setup : Setup}

theorem finished_debugNotice (level : UInt8) (text : String) :
    (setup.debugNotice level text).Finished := by
  intro event hevent
  obtain ⟨verbosity, message, rfl⟩ := setup.mem_debugNotice hevent
  exact id

theorem finished_report (severity : Severity) (fault : Fault) (s : Session) :
    (setup.report severity fault s).journal.Finished := by
  rw [report_apply, Journal.finished_cons]
  refine ⟨by simp [Event.Enters, Policy.faultEntry], fun event hevent => ?_⟩
  obtain ⟨verbosity, text, rfl⟩ := Policy.mem_announcement hevent
  exact id

theorem finished_settle (site : OptionSite) (error : HandlerError) (s : Session) :
    (setup.settle site error s).journal.Finished := by
  rw [settle_apply]
  split
  · exact Journal.finished_nil
  · exact finished_report _ _ s

/-! ## A run beside another one -/

/-- A run in sessions as wanted beside one of which only the results count. -/
def beside (setup : Setup) (wanted : Session → Prop) (parted : Journal → Journal → Prop) :
    Comparison where
  related s s' := wanted s ∧ setup.Warrants s'
  alike _ j' := j'.Finished
  parted := parted

theorem beside_laws {wanted : Session → Prop} (hsteady : setup.Steady setup.Discreet wanted)
    (hwarrants : ∀ {s}, wanted s → setup.Warrants s) {parted : Journal → Journal → Prop}
    (hparted : ∀ {j j' k k'}, parted j j' ∨ parted k k' → parted (j ++ k) (j' ++ k')) :
    (setup.beside wanted parted).Laws setup setup setup.Discreet where
  registry := rfl
  alike_nil := Journal.finished_nil
  alike_append hj hk := Journal.finished_append.2 ⟨hj, hk⟩
  parted_append _ _ hj := hparted (.inl hj)
  parted_after _ _ hk := hparted (.inr hk)
  entry _ _ _ _ _ hentry _ := Journal.finished_cons.2 ⟨hentry, Journal.finished_nil⟩
  custom _ _ _ _ := by simp [beside, Journal.Finished, Event.Enters]
  note _ := by simp [beside, Journal.Finished, Event.Enters]
  notice level text := finished_debugNotice level text
  depth h := h.elim
  settings _ := rfl
  report {s s'} h severity fault hallowed := by
    refine .inr ⟨?_, ⟨?_, ?_⟩, finished_report severity fault s'⟩
    · rw [result_report, result_report]
    · exact hsteady.report h.1 severity fault hallowed
    · exact steady_warrants.report h.2 severity fault hallowed
  settle {s s'} h site error := by
    refine .inr ⟨?_, ⟨?_, ?_⟩, finished_settle site error s'⟩
    · rw [result_settle (hwarrants h.1), result_settle h.2]
    · exact hsteady.settle h.1 site error
    · exact steady_warrants.settle h.2 site error

/-! ## What a section comes to by itself -/

/-- Evaluates a section by itself with requests nested at most `depth` deep. A section that is
requested beyond is entered, but not evaluated. -/
def alone (setup : Setup) : Nat → Evaluator
  | 0 => fun name s => ⟨.ok ∅, s, [.entry ⟨.sectionEntry, name, 0, ∅⟩]⟩
  | depth + 1 => fun name s =>
    let body := setup.evalBody (alone setup depth) name {}
    ⟨body.result.map (·.getD ∅), s, body.journal⟩

/-- By itself, a section makes requests that are nested at most `depth` deep. -/
def Finishes (setup : Setup) (depth : Nat) (name : String) : Prop :=
  (setup.alone depth name {}).journal.Finished

/-- What a section comes to by itself. -/
def Yields (setup : Setup) (name : String) (result : Except Fault SectionState) : Prop :=
  ∃ depth, setup.Finishes depth name ∧ (setup.alone depth name {}).result = result

variable {depth deeper : Nat} {name : String} {s : Session}

theorem alone_apply (depth : Nat) (name : String) (s : Session) :
    setup.alone depth name s =
      ⟨(setup.alone depth name {}).result, s, (setup.alone depth name {}).journal⟩ := by
  cases depth <;> rfl

theorem not_finishes_zero : ¬ setup.Finishes 0 name := by
  simp [Finishes, alone, Journal.Finished, Event.Enters]

theorem alone_succ_apply (depth : Nat) (name : String) (s : Session) :
    setup.alone (depth + 1) name s =
      let body := setup.evalBody (setup.alone depth) name {}
      ⟨body.result.map (·.getD ∅), s, body.journal⟩ := rfl

theorem finishes_of_none (h : setup.document.options? name = none) :
    setup.Finishes (depth + 1) name := by
  rw [Finishes, alone_succ_apply, evalBody_of_none setup h]
  exact finished_report _ _ _

/-- Induction on the depth: equal runs, unless one of the requests is not finished. -/
theorem alone_succ (h : setup.Finishes depth name) :
    setup.alone (depth + 1) name = setup.alone depth name := by
  induction depth generalizing name with
  | zero => exact absurd h not_finishes_zero
  | succ depth ih =>
    let equal := Comparison.same (fun _ => True) fun journal => ¬ journal.Finished
    have hlaws : equal.Laws setup setup fun _ => True := by
      refine Comparison.same_laws ⟨by simp, by simp⟩ ?_
      intro j k hbroken
      rwa [Journal.finished_append, not_and_or]
    have hnested (target : String) {t t' : Session} (ht : equal.related t t') :
        equal.Matches equal.related (setup.alone depth target t)
          (setup.alone (depth + 1) target t') := by
      obtain ⟨rfl, -⟩ := ht
      by_cases hfinishes : setup.Finishes depth target
      · rw [ih hfinishes]
        exact Comparison.same_matches fun _ => trivial
      · rw [alone_apply depth]
        exact .inl hfinishes
    have hstart : equal.related {} {} := ⟨rfl, trivial⟩
    have hbody :=
      ((hlaws.evalBody hnested (Registry.only_true _) rfl hstart).eq_of_same (not_not.2 h)).1
    funext t
    rw [alone_succ_apply, alone_succ_apply, ← hbody]

theorem alone_of_le (h : setup.Finishes depth name) (hle : depth ≤ deeper) :
    setup.alone deeper name = setup.alone depth name := by
  induction hle with
  | refl => rfl
  | step _ ih =>
    refine (alone_succ ?_).trans ih
    rwa [Finishes, ih]

theorem Finishes.of_le (h : setup.Finishes depth name) (hle : depth ≤ deeper) :
    setup.Finishes deeper name := by
  rwa [Finishes, alone_of_le h hle]

theorem Yields.unique {result result' : Except Fault SectionState}
    (h : setup.Yields name result) (h' : setup.Yields name result') : result = result' := by
  obtain ⟨depth, hfinishes, rfl⟩ := h
  obtain ⟨depth', hfinishes', rfl⟩ := h'
  rw [← alone_of_le hfinishes (Nat.le_max_left depth depth'),
    ← alone_of_le hfinishes' (Nat.le_max_right depth depth')]

/-- One depth is enough for all that finish among the sections of a list. -/
theorem exists_enough_of_mem (setup : Setup) (names : List String) :
    ∃ enough, ∀ name ∈ names, ∀ depth,
      setup.Finishes depth name → setup.Finishes enough name := by
  induction names with
  | nil => exact ⟨0, by simp⟩
  | cons first rest ih =>
    obtain ⟨enough, hrest⟩ := ih
    by_cases hfirst : ∃ depth, setup.Finishes depth first
    · obtain ⟨depth, hdepth⟩ := hfirst
      refine ⟨max enough depth, fun name hname deeper hdeeper => ?_⟩
      rcases List.mem_cons.1 hname with rfl | hname
      · exact hdepth.of_le (Nat.le_max_right _ _)
      · exact (hrest name hname deeper hdeeper).of_le (Nat.le_max_left _ _)
    · refine ⟨enough, fun name hname depth hdepth => ?_⟩
      rcases List.mem_cons.1 hname with rfl | hname
      · exact absurd ⟨depth, hdepth⟩ hfirst
      · exact hrest name hname depth hdepth

/-- There are finitely many sections, so one depth is enough for all that finish. -/
theorem exists_enough (setup : Setup) :
    ∃ enough, ∀ name depth, setup.Finishes depth name → setup.Finishes enough name := by
  obtain ⟨enough, henough⟩ := setup.exists_enough_of_mem setup.document.names
  refine ⟨enough + 1, fun name depth hdepth => ?_⟩
  cases hoptions : setup.document.options? name with
  | none => exact finishes_of_none hoptions
  | some options =>
    have hname : name ∈ setup.document.names :=
      OrderedMap.contains_iff_mem_keys.1 (hasSection_iff.2 ⟨options, hoptions⟩)
    exact (henough name hname depth hdepth).of_le (Nat.le_succ _)

end Setup

end IniCompose
