import IniCompose.Proofs.Evaluation.Demands
import IniCompose.Proofs.Evaluation.Entries

/-!
# What the options of a section add to the trace

Between the entry of a section that is evaluated to a state and its exit, the trace is made up of
what its options add, one after the other in file order: an assignment, a handler with all that it
requests, or a fault that is passed over. Wherever an existing section is left, this is what the
trace has since the section was entered.
-/
namespace IniCompose

/-- The entry tells that the section is entered or left. -/
def Trace.Entry.Bounds (entry : Trace.Entry) (name : String) : Prop :=
  (entry.kind = .sectionEntry ∨ entry.kind = .sectionExit) ∧ entry.name = name

theorem Trace.Entry.not_bounds {entry : Trace.Entry} (hentry : entry.kind ≠ .sectionEntry)
    (hexit : entry.kind ≠ .sectionExit) (name : String) : ¬ entry.Bounds name := by
  rintro ⟨hkind | hkind, -⟩
  · exact hentry hkind
  · exact hexit hkind

/-- An entry of two traces, one after the other, is one of the first or of the second. -/
theorem Trace.cut_append {first second earlier later : Trace} {entry : Trace.Entry}
    (h : first ++ second = earlier ++ entry :: later) :
    (∃ rest, first = earlier ++ entry :: rest) ∨
      ∃ front, earlier = first ++ front ∧ second = front ++ entry :: later := by
  obtain ⟨front, hearlier, hsecond⟩ | ⟨rest, hfirst, hlater⟩ := List.append_eq_append_iff.1 h
  · exact .inr ⟨front, hearlier, hsecond⟩
  · cases rest with
    | nil => exact .inr ⟨[], by simpa using hfirst.symm, by simpa using hlater.symm⟩
    | cons head rest =>
      obtain ⟨rfl, -⟩ := List.cons.inj hlater
      exact .inl ⟨rest, hfirst⟩

namespace Setup

/-! ## Options -/

/-- What an option of a section at some depth adds to the trace where it does not end the
evaluation. -/
inductive Contributes (setup : Setup) (sectionName : String) (depth : Nat) :
    String × String → Trace → Prop
  /-- Neither a handler nor a generic one: the option is assigned. -/
  | assigned {stored value resolved} :
    setup.registry.resolveKey sectionName stored = .ok resolved → resolved.handler = none →
    setup.registry.generic = none →
    Contributes setup sectionName depth (stored, value)
      [⟨.keyMatch, .ofList (Text.trim (StoredKey.split stored).1.toList), depth,
        .ofList [("value", value)]⟩]
  /-- The handler of the option succeeds. -/
  | handled {stored value resolved handler site budget s t journal} :
    setup.registry.resolveKey sectionName stored = .ok resolved →
    (resolved.handler <|> setup.registry.generic) = some handler →
    site = ⟨sectionName, (StoredKey.split stored).1, value, resolved.key⟩ →
    s.1.active.depth = depth →
    setup.run (setup.evaluateWithin budget) (handler site) s = ⟨.ok (), t, journal⟩ →
    journal.engineTrace.handlers.Balanced →
    Contributes setup sectionName depth (stored, value)
      (site.startEntry depth :: journal.engineTrace ++ [site.endEntry depth "ok"])
  /-- The handler of the option fails, with a fault that is not raised. -/
  | passedOver {stored value resolved handler site budget s t journal error} :
    setup.registry.resolveKey sectionName stored = .ok resolved →
    (resolved.handler <|> setup.registry.generic) = some handler →
    site = ⟨sectionName, (StoredKey.split stored).1, value, resolved.key⟩ →
    s.1.active.depth = depth →
    setup.run (setup.evaluateWithin budget) (handler site) s = ⟨.error error, t, journal⟩ →
    journal.engineTrace.handlers.Balanced →
    setup.policy.decision (faultOf site error).severity ≠ .raise →
    Contributes setup sectionName depth (stored, value)
      (site.startEntry depth :: journal.engineTrace ++
        [site.endEntry depth "error",
          Policy.faultEntry (faultOf site error).severity
            (setup.policy.decision (faultOf site error).severity) (faultOf site error) depth])
  /-- The option is malformed, which is not raised. -/
  | malformed {stored value key detail} :
    setup.registry.resolveKey sectionName stored =
      .error (.optionFormat sectionName key detail) →
    setup.policy.decision .minor ≠ .raise →
    Contributes setup sectionName depth (stored, value)
      [Policy.faultEntry .minor (setup.policy.decision .minor)
        (.optionFormat sectionName key detail) depth]

variable {setup : Setup} {budget : Nat} {sectionName : String} {state : SectionState} {s : Session}

theorem not_raise_of_report {severity : Severity} {fault : Fault}
    (hok : (setup.report severity fault s).result = .ok ()) :
    setup.policy.decision severity ≠ .raise := by
  intro hraise
  rw [report_apply, if_pos hraise] at hok
  cases hok

/-- An error that does not end the evaluation is put on the record with a fault that is not raised.
-/
theorem settle_eq_report {site : OptionSite} {error : HandlerError}
    (hok : (setup.settle site error s).result = .ok ()) :
    setup.settle site error s =
      setup.report (faultOf site error).severity (faultOf site error) s := by
  rw [settle_apply] at hok ⊢
  split
  · next hknown => simp [hknown] at hok
  · rfl

theorem contributes_dispatch {stored value : String} {resolved : ResolvedKey} {handler : Handler}
    (hresolve : setup.registry.resolveKey sectionName stored = .ok resolved)
    (hhandler : (resolved.handler <|> setup.registry.generic) = some handler)
    {site : OptionSite}
    (hsite : site = ⟨sectionName, (StoredKey.split stored).1, value, resolved.key⟩)
    {next : SectionState}
    (hok : (setup.dispatch (setup.evaluateWithin budget) handler site state s).result = .ok next) :
    setup.Contributes sectionName s.active.depth (stored, value)
      (setup.dispatch (setup.evaluateWithin budget) handler site state s).journal.engineTrace := by
  have hactive := (setup.bracketed_grows.run (setup.grows_evaluateWithin budget)
    (handler site) (s, state)).active
  have hbalanced := setup.bracketed_balanced.run
    (setup.bracketed_balanced.evaluateWithin budget) (handler site) (s, state)
  rw [dispatch_apply] at hok ⊢
  generalize hrun : setup.run (setup.evaluateWithin budget) (handler site) (s, state) = outcome
    at hactive hbalanced hok ⊢
  obtain ⟨error | _, ⟨t, left⟩, journal⟩ := outcome
  · obtain ⟨_, hsettled, -⟩ := Except.ok_of_map_eq_ok hok
    have hreport := settle_eq_report hsettled
    rw [hreport] at hsettled
    have hcontributes := Contributes.passedOver hresolve hhandler hsite rfl hrun hbalanced
      (not_raise_of_report hsettled)
    simpa [hreport, show t.active = s.active from hactive] using hcontributes
  · simpa using Contributes.handled hresolve hhandler hsite rfl hrun hbalanced

/-- One of the four ways, for an option that does not end the evaluation. -/
theorem contributes_evalOption {stored value : String} {next : SectionState}
    (hok : (setup.evalOption (setup.evaluateWithin budget) sectionName stored value state
      s).result = .ok next) :
    setup.Contributes sectionName s.active.depth (stored, value)
      (setup.evalOption (setup.evaluateWithin budget) sectionName stored value state
        s).journal.engineTrace := by
  cases hresolve : setup.registry.resolveKey sectionName stored with
  | error fault =>
    rw [evalOption_of_error setup hresolve] at hok ⊢
    obtain ⟨_, hreported, -⟩ := Except.ok_of_map_eq_ok hok
    have hdecision := not_raise_of_report hreported
    rw [engineTrace_report]
    obtain ⟨key, detail, rfl⟩ | ⟨key, operation, count, rfl⟩ :=
      Registry.fault_of_resolveKey hresolve
    · exact .malformed hresolve hdecision
    · exact absurd (Severity.decision_critical _) hdecision
  | ok resolved =>
    cases hhandler : (resolved.handler <|> setup.registry.generic) with
    | some handler =>
      rw [evalOption_of_handler setup hresolve hhandler] at hok ⊢
      exact contributes_dispatch hresolve hhandler rfl hok
    | none =>
      obtain ⟨hnone, hgeneric⟩ : resolved.handler = none ∧ setup.registry.generic = none := by
        simpa using hhandler
      rw [evalOption_of_none setup hresolve hhandler]
      obtain ⟨-, -, -, hparameter, -⟩ | ⟨_, -, hsome, -⟩ := Registry.resolveKey_eq_ok hresolve
      · rw [hparameter]
        exact .assigned hresolve hnone hgeneric
      · cases hnone.symm.trans hsome

/-- Induction on the options. -/
theorem contributes_evalOptions {options : List (String × String)} {final : SectionState}
    (hok : (setup.evalOptions (setup.evaluateWithin budget) sectionName options state s).result =
      .ok final) :
    ∃ groups : List Trace,
      List.Forall₂ (setup.Contributes sectionName s.active.depth) options groups ∧
      (setup.evalOptions (setup.evaluateWithin budget) sectionName options state
        s).journal.engineTrace = groups.flatten := by
  induction options generalizing state s with
  | nil => exact ⟨[], .nil, rfl⟩
  | cons option rest ih =>
    have hgrows := setup.bracketed_grows.evalOption (setup.grows_evaluateWithin budget)
      sectionName option.1 option.2 state s
    rw [evalOptions, Journaled.bind_apply] at hok ⊢
    cases hfirst : (setup.evalOption (setup.evaluateWithin budget) sectionName option.1 option.2
        state s).result with
    | error fault => simp [hfirst] at hok
    | ok next =>
      simp only [hfirst, Outcome.result_after] at hok
      obtain ⟨groups, hgroups, hrest⟩ := ih hok
      rw [hgrows.active] at hgroups
      refine ⟨_ :: groups, .cons (contributes_evalOption hfirst) hgroups, ?_⟩
      simp [hrest]

/-! ## Sections that are active -/

/-- A section that is active is neither entered nor left. -/
structure Spares (s : Session) (journal : Journal) (t : Session) : Prop where
  active_eq : t.active = s.active
  not_bounds : ∀ name ∈ s.active.stack, ∀ entry ∈ journal.engineTrace, ¬ entry.Bounds name

theorem spares_single {entry : Trace.Entry} {t : Session} (hactive : t.active = s.active)
    (hentry : entry.kind ≠ .sectionEntry) (hexit : entry.kind ≠ .sectionExit) :
    Spares s [.entry entry] t :=
  ⟨hactive, fun name _ _ hmem => List.mem_singleton.1 hmem ▸ entry.not_bounds hentry hexit name⟩

/-- A section that is entered was not active before. -/
theorem Spares.enter (setup : Setup) {name : String} {active : ActiveSections} {journal : Journal}
    {t : Session} (hpush : s.active.push name = .ok active)
    (h : Spares { s with active } journal t) :
    t.active.pop name = s.active ∧ ∀ other ∈ s.active.stack,
      ∀ entry ∈ (setup.opening name active.depth ++ journal).engineTrace, ¬ entry.Bounds other := by
  obtain ⟨hname, hstack⟩ := ActiveSections.push_eq_ok_iff.1 hpush
  refine ⟨by rw [h.active_eq, ActiveSections.pop_push hpush], fun other hother entry hentry => ?_⟩
  rw [Journal.engineTrace_append, engineTrace_opening, List.singleton_append] at hentry
  rcases List.mem_cons.1 hentry with rfl | hinside
  · rintro ⟨-, rfl⟩
    exact hname hother
  · exact h.not_bounds other (by simp [hstack, hother]) entry hinside

theorem bracketed_spares : setup.Bracketed Spares where
  refl _ := ⟨rfl, fun _ _ => List.forall_mem_nil _⟩
  trans h h' := by
    refine ⟨h'.active_eq.trans h.active_eq, fun name hname => ?_⟩
    rw [Journal.engineTrace_append]
    exact List.forall_mem_append.2
      ⟨h.not_bounds name hname, h'.not_bounds name (h.active_eq ▸ hname)⟩
  tell _ event hplain := by
    cases event with
    | entry logged =>
      have hkind : logged.kind = .keyMatch := hplain
      exact spares_single rfl (by simp [hkind]) (by simp [hkind])
    | custom _ | message _ _ | note _ => exact ⟨rfl, fun _ _ => List.forall_mem_nil _⟩
  passOver _ _ _ _ _ :=
    spares_single rfl (by simp [Policy.faultEntry]) (by simp [Policy.faultEntry])
  raise _ _ _ := spares_single rfl (by simp [Policy.faultEntry]) (by simp [Policy.faultEntry])
  handle {s _ _} site status h := by
    refine ⟨h.active_eq, fun name hname entry hentry => ?_⟩
    simp only [List.cons_append, Journal.engineTrace_entry_cons, Journal.engineTrace_append,
      Journal.engineTrace_nil, List.mem_cons, List.mem_append, List.not_mem_nil, or_false] at hentry
    rcases hentry with rfl | hinside | rfl
    · exact Trace.Entry.not_bounds (by simp [OptionSite.startEntry])
        (by simp [OptionSite.startEntry]) name
    · exact h.not_bounds name hname entry hinside
    · exact Trace.Entry.not_bounds (by simp [OptionSite.endEntry])
        (by simp [OptionSite.endEntry]) name
  abandon _ _ hpush _ h := by
    obtain ⟨hactive, hinside⟩ := Spares.enter setup hpush h
    exact ⟨hactive, hinside⟩
  complete {_ s _ name active _ _} _ _ hpush _ h := by
    obtain ⟨hname, -⟩ := ActiveSections.push_eq_ok_iff.1 hpush
    obtain ⟨hactive, hinside⟩ := Spares.enter setup hpush h
    refine ⟨by rw [active_leave]; exact hactive, fun other hother => ?_⟩
    rw [Journal.engineTrace_append]
    refine List.forall_mem_append.2 ⟨hinside other hother, List.forall_mem_singleton.2 ?_⟩
    rintro ⟨-, rfl⟩
    exact hname hother

/-! ## Sections that are completed -/

/-- The trace up to the exit of a section: since its entry, which is the last one of the section, it
is made up of what the options add. The exit tells how many keys the section's state has. -/
inductive Spans (setup : Setup) (name : String) (state : SectionState) :
    Trace → Trace.Entry → Prop
  | mk {options depth groups} (before : Trace) :
    setup.document.options? name = some options →
    List.Forall₂ (setup.Contributes name depth) options.entries groups →
    (∀ entry ∈ groups.flatten, ¬ entry.Bounds name) →
    Spans setup name state (before ++ ⟨.sectionEntry, name, depth, .ofList []⟩ :: groups.flatten)
      (exitEntry name depth state.size)

/-- Wherever a trace tells that an existing section is left, the section is cached, and the trace is
made up of what its options add since it was entered. -/
def Accounts (setup : Setup) (trace : Trace) (cache : OrderedMap SectionState) : Prop :=
  ∀ earlier exit later name, trace = earlier ++ exit :: later → exit.Leaves name →
    setup.document.hasSection name →
      ∃ state, cache.get? name = some state ∧ setup.Spans name state earlier exit

namespace Accounts

variable {first second : Trace} {cache cache' : OrderedMap SectionState}

theorem of_quiet (h : ∀ entry ∈ first, entry.kind ≠ .sectionExit) : setup.Accounts first cache := by
  rintro earlier exit later name rfl hleaves
  exact absurd hleaves.1 (h exit (by simp))

theorem of_keeps (h : setup.Accounts first cache) (hkeeps : cache.Keeps cache') :
    setup.Accounts first cache' := by
  intro earlier exit later name htrace hleaves hexists
  obtain ⟨state, hcached, hspans⟩ := h earlier exit later name htrace hleaves hexists
  exact ⟨state, hkeeps hcached, hspans⟩

theorem append (h : setup.Accounts first cache) (h' : setup.Accounts second cache) :
    setup.Accounts (first ++ second) cache := by
  intro earlier exit later name htrace hleaves hexists
  obtain ⟨rest, hfirst⟩ | ⟨front, rfl, hsecond⟩ := Trace.cut_append htrace
  · exact h earlier exit rest name hfirst hleaves hexists
  · obtain ⟨state, hcached, hspans⟩ := h' front exit later name hsecond hleaves hexists
    refine ⟨state, hcached, ?_⟩
    cases hspans with
    | mk before hoptions hgroups hbounds =>
      rw [← List.append_assoc]
      exact .mk (first ++ before) hoptions hgroups hbounds

/-- One more entry, which is accounted for by the trace before it. -/
theorem concat (h : setup.Accounts first cache) {exit : Trace.Entry}
    (hexit : ∀ name, exit.Leaves name → setup.document.hasSection name →
      ∃ state, cache.get? name = some state ∧ setup.Spans name state first exit) :
    setup.Accounts (first ++ [exit]) cache := by
  intro earlier last later name htrace hleaves hexists
  obtain ⟨rest, hfirst⟩ | ⟨front, rfl, hlast⟩ := Trace.cut_append htrace
  · exact h earlier last rest name hfirst hleaves hexists
  · obtain ⟨rfl, heq⟩ | ⟨-, heq⟩ := List.singleton_eq_append_iff.1 hlast
    · obtain ⟨rfl, -⟩ := List.cons.inj heq
      simpa using hexit name hleaves hexists
    · cases heq

end Accounts

/-- An existing section that is evaluated to a state is made up of what its options add. -/
theorem spans_of_evalBody {name : String} {active : ActiveSections} {state? : Option SectionState}
    {t : Session} {journal : Journal} (hpush : s.active.push name = .ok active)
    (hbody : setup.evalBody (setup.evaluateWithin budget) name { s with active } =
      ⟨.ok state?, t, journal⟩) (hexists : setup.document.hasSection name) :
    ∃ state, state? = some state ∧
      setup.Spans name state (setup.opening name active.depth ++ journal).engineTrace
        (exitEntry name active.depth state.size) := by
  obtain ⟨-, hstack⟩ := ActiveSections.push_eq_ok_iff.1 hpush
  have hspares := setup.bracketed_spares.evalBody (setup.bracketed_spares.evaluateWithin budget)
    name { s with active }
  rw [hbody] at hspares
  have hbounds := hspares.not_bounds name (by simp [hstack])
  obtain ⟨options, hoptions⟩ := hasSection_iff.1 hexists
  rw [evalBody_of_some setup hoptions] at hbody
  obtain ⟨state, hok, rfl⟩ := Except.ok_of_map_eq_ok (congrArg Outcome.result hbody)
  obtain ⟨groups, hgroups, htrace⟩ := contributes_evalOptions hok
  rw [show _ = journal from congrArg Outcome.journal hbody] at htrace
  refine ⟨state, rfl, ?_⟩
  rw [Journal.engineTrace_append, engineTrace_opening, htrace]
  exact .mk [] hoptions hgroups (htrace ▸ hbounds)

theorem accounts_opening (name : String) (depth : Nat) (cache : OrderedMap SectionState) :
    setup.Accounts (setup.opening name depth).engineTrace cache := by
  rw [engineTrace_opening]
  exact .of_quiet (List.forall_mem_singleton.2 (by simp))

theorem bracketed_accounts :
    setup.Bracketed fun s journal t => Grows s t ∧ setup.Accounts journal.engineTrace t.cache where
  refl s := ⟨setup.kept_grows.refl s, .of_quiet (List.forall_mem_nil _)⟩
  trans {_ _ _ j k} h h' := by
    refine ⟨setup.kept_grows.trans (j := j) (k := k) h.1 h'.1, ?_⟩
    rw [Journal.engineTrace_append]
    exact (h.2.of_keeps h'.1.cache).append h'.2
  tell s event hplain := by
    refine ⟨setup.bracketed_grows.tell s event hplain, .of_quiet ?_⟩
    cases event with
    | entry logged =>
      exact List.forall_mem_singleton.2 (Event.kind_ne_sectionExit_of_plain hplain)
    | custom _ | message _ _ | note _ => exact List.forall_mem_nil _
  passOver s severity decision fault hdecision :=
    ⟨setup.bracketed_grows.passOver s severity decision fault hdecision,
      .of_quiet (List.forall_mem_singleton.2 (by simp [Policy.faultEntry]))⟩
  raise s severity fault :=
    ⟨setup.bracketed_grows.raise s severity fault,
      .of_quiet (List.forall_mem_singleton.2 (by simp [Policy.faultEntry]))⟩
  handle {s t j} site status h := by
    refine ⟨setup.bracketed_grows.handle (j := j) site status h.1, ?_⟩
    have hstart : setup.Accounts [site.startEntry s.active.depth] t.cache :=
      .of_quiet (List.forall_mem_singleton.2 (by simp [OptionSite.startEntry]))
    have hend : setup.Accounts [site.endEntry s.active.depth status] t.cache :=
      .of_quiet (List.forall_mem_singleton.2 (by simp [OptionSite.endEntry]))
    simpa using hstart.append (h.2.append hend)
  abandon {_ s t name active _ _} hnested hcache hpush hbody h := by
    refine ⟨setup.bracketed_grows.abandon (fun name s => (hnested name s).1) hcache hpush
      hbody h.1, ?_⟩
    rw [Journal.engineTrace_append]
    exact (accounts_opening name active.depth t.cache).append h.2
  complete {_ s t name active j state?} hnested hcache hpush hbody h := by
    have hgrows := setup.bracketed_grows.complete (fun name s => (hnested name s).1) hcache
      hpush hbody h.1
    obtain ⟨-, hstack⟩ := ActiveSections.push_eq_ok_iff.1 hpush
    have hnone : t.cache.get? name = none := h.1.spares (by simp [hstack]) hcache
    have hleft := Caches.leave (s := { t with active := t.active.pop name }) hnone
      (isSome_iff_hasSection hbody) active.depth (state?.getD ∅).size
    have hinside : setup.Accounts (setup.opening name active.depth ++ j).engineTrace
        (leave name { t with active := t.active.pop name } state?).cache := by
      rw [Journal.engineTrace_append]
      exact (accounts_opening name active.depth _).append (h.2.of_keeps fun _ _ => hleft.keeps)
    refine ⟨hgrows, ?_⟩
    rw [Journal.engineTrace_append]
    refine hinside.concat fun other hleaves hexists => ?_
    obtain rfl : name = other := hleaves.2
    obtain ⟨state, rfl, hspans⟩ := spans_of_evalBody hpush hbody hexists
    exact ⟨state, by simp [leave], hspans⟩

end Setup

end IniCompose
