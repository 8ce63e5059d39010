import IniCompose.Proofs.Evaluation.Kept

/-!
# Completed sections

A section that exists is cached exactly when its evaluation is completed, and that is on the record
as its exit. So the exits of an existing section in a journal and whether it was cached before make
up whether it is cached after, whatever the handlers do: while a section is being evaluated it
cannot be completed within, and once it is cached it is not evaluated again.
-/
namespace IniCompose

/-- The entry tells that the section has been left with a state. -/
def Trace.Entry.Leaves (entry : Trace.Entry) (name : String) : Prop :=
  entry.kind = .sectionExit ∧ entry.name = name

instance (entry : Trace.Entry) (name : String) : Decidable (entry.Leaves name) :=
  inferInstanceAs (Decidable (_ ∧ _))

namespace Journal

/-- How often the engine has left a section with a state. -/
def exits (journal : Journal) (name : String) : Nat :=
  journal.engineTrace.countP fun entry => entry.Leaves name

variable {journal : Journal} {name : String}

@[simp] theorem exits_nil : exits [] name = 0 := rfl

@[simp] theorem exits_append (first second : Journal) :
    exits (first ++ second) name = first.exits name + second.exits name := by
  simp [exits]

@[simp] theorem exits_singleton (entry : Trace.Entry) :
    exits [.entry entry] name = if entry.Leaves name then 1 else 0 := by
  simp [exits, engineTrace, List.countP_cons]

theorem exits_eq_zero (h : ∀ entry, .entry entry ∈ journal → entry.kind ≠ .sectionExit) :
    journal.exits name = 0 := by
  refine List.countP_eq_zero.2 fun entry hentry hleaves => ?_
  obtain ⟨event, hevent, heq⟩ := List.mem_filterMap.1 hentry
  cases event <;> cases heq
  exact h entry hevent (of_decide_eq_true hleaves).1

theorem exits_mono {first second : Journal} (h : first <+: second) :
    first.exits name ≤ second.exits name := by
  obtain ⟨rest, rfl⟩ := h
  simp

end Journal

theorem Event.kind_ne_sectionExit_of_plain {entry : Trace.Entry} (h : (Event.entry entry).Plain) :
    entry.kind ≠ .sectionExit := by
  simp [show entry.kind = _ from h]

namespace Setup

/-- What is cached stays cached; of the sections that exist those are added that the journal tells
to be left with a state, each once, and no others are added. -/
structure Caches (setup : Setup) (cache : OrderedMap SectionState) (journal : Journal)
    (cache' : OrderedMap SectionState) : Prop where
  keeps : ∀ {name state}, cache.get? name = some state → cache'.get? name = some state
  exits : ∀ {name}, setup.document.hasSection name →
    journal.exits name + (cache.contains name).toNat = (cache'.contains name).toNat
  exist : ∀ {name}, cache'.contains name → cache.contains name ∨ setup.document.hasSection name

namespace Caches

variable {setup : Setup} {first second third : OrderedMap SectionState} {journal later : Journal}
  {name : String}

theorem refl (setup : Setup) (cache : OrderedMap SectionState) : setup.Caches cache [] cache :=
  ⟨id, by simp, .inl⟩

theorem trans (h : setup.Caches first journal second) (h' : setup.Caches second later third) :
    setup.Caches first (journal ++ later) third where
  keeps hstate := h'.keeps (h.keeps hstate)
  exits hexists := by
    have hfirst := h.exits hexists
    have hsecond := h'.exits hexists
    rw [Journal.exits_append]
    omega
  exist hcached := (h'.exist hcached).elim h.exist .inr

/-- Nothing is cached where no section is left with a state. -/
theorem of_quiet (h : ∀ entry, .entry entry ∈ journal → entry.kind ≠ .sectionExit) :
    setup.Caches first journal first :=
  ⟨id, by simp [Journal.exits_eq_zero h], .inl⟩

theorem tell {entry : Trace.Entry} (h : entry.kind ≠ .sectionExit) :
    setup.Caches first [.entry entry] first :=
  of_quiet fun other hother => by
    cases List.mem_singleton.1 hother
    exact h

/-- A section that is left is cached exactly if it exists. -/
theorem leave {s : Session} {state? : Option SectionState} (hnone : s.cache.get? name = none)
    (hexists : state?.isSome ↔ setup.document.hasSection name) (depth keys : Nat) :
    setup.Caches s.cache [.entry (exitEntry name depth keys)]
      (Setup.leave name s state?).cache where
  keeps {other state} hother := by
    have hne : other ≠ name := by rintro rfl; simp [hnone] at hother
    rwa [get?_leave_of_ne hne]
  exits {other} hother := by
    by_cases hname : other = name
    · subst hname
      obtain ⟨state, rfl⟩ := Option.isSome_iff_exists.1 (hexists.2 hother)
      simp [Trace.Entry.Leaves, exitEntry, OrderedMap.contains, hnone, Setup.leave]
    · have hne : ¬ (exitEntry name depth keys).Leaves other := fun hleaves => hname hleaves.2.symm
      simp [hne, OrderedMap.contains, get?_leave_of_ne hname]
  exist {other} hother := by
    by_cases hname : other = name
    · subst hname
      cases state? with
      | some state => exact .inr (hexists.1 rfl)
      | none => exact .inl hother
    · rw [OrderedMap.contains, get?_leave_of_ne hname] at hother
      exact .inl hother

/-- What is cached of the existing sections tells what was left. -/
theorem contains_mono {cache : OrderedMap SectionState} (h : setup.Caches cache journal first)
    (h' : setup.Caches cache later second) (hbegins : journal <+: later)
    (hname : first.contains name) : second.contains name := by
  obtain hcached | hexists := h.exist hname
  · obtain ⟨state, hstate⟩ := Option.isSome_iff_exists.1 hcached
    exact Option.isSome_of_eq_some (h'.keeps hstate)
  · have hexits := h.exits hexists
    have hexits' := h'.exits hexists
    have hle : journal.exits name ≤ later.exits name := Journal.exits_mono hbegins
    cases hsecond : second.contains name with
    | true => rfl
    | false =>
      rw [hname] at hexits
      rw [hsecond] at hexits'
      simp only [Bool.toNat_true, Bool.toNat_false] at hexits hexits'
      omega

end Caches

variable (setup : Setup)

/-- The body of a section has a state exactly if the section exists. -/
theorem isSome_iff_hasSection {setup : Setup} {nested : Evaluator} {name : String} {s t : Session}
    {state? : Option SectionState} {journal : Journal}
    (h : setup.evalBody nested name s = ⟨.ok state?, t, journal⟩) :
    state?.isSome ↔ setup.document.hasSection name := by
  refine ⟨Kept.hasSection_of_evalBody (congrArg Outcome.result h), fun hexists => ?_⟩
  obtain ⟨options, hoptions⟩ := hasSection_iff.1 hexists
  rw [evalBody_of_some setup hoptions] at h
  obtain ⟨state, -, rfl⟩ := Except.ok_of_map_eq_ok (congrArg Outcome.result h)
  rfl

theorem opening_kind {name : String} {depth : Nat} {entry : Trace.Entry}
    (h : .entry entry ∈ setup.opening name depth) :
    entry = ⟨.sectionEntry, name, depth, .ofList []⟩ := by
  obtain heq | hnotice := List.mem_cons.1 h
  · exact Event.entry.inj heq
  · obtain ⟨_, _, heq⟩ := setup.mem_debugNotice hnotice
    cases heq

theorem caches_opening (name : String) (depth : Nat) (cache : OrderedMap SectionState) :
    setup.Caches cache (setup.opening name depth) cache :=
  .of_quiet fun entry hentry => by simp [setup.opening_kind hentry]

theorem bracketed_caches :
    setup.Bracketed fun s journal t => Grows s t ∧ setup.Caches s.cache journal t.cache where
  refl s := ⟨setup.kept_grows.refl s, .refl setup s.cache⟩
  trans {_ _ _ j k} h h' :=
    ⟨setup.kept_grows.trans (j := j) (k := k) h.1 h'.1, h.2.trans h'.2⟩
  tell s event hplain := by
    refine ⟨setup.bracketed_grows.tell s event hplain, .of_quiet fun entry hentry => ?_⟩
    cases List.mem_singleton.1 hentry
    exact Event.kind_ne_sectionExit_of_plain hplain
  passOver s severity decision fault hdecision :=
    ⟨setup.bracketed_grows.passOver s severity decision fault hdecision,
      .tell (by simp [Policy.faultEntry])⟩
  raise s severity fault :=
    ⟨setup.bracketed_grows.raise s severity fault, .tell (by simp [Policy.faultEntry])⟩
  handle {s _ j} site status h := by
    refine ⟨setup.bracketed_grows.handle (j := j) site status h.1, ?_⟩
    have hstart : setup.Caches s.cache [.entry (site.startEntry s.active.depth)] s.cache :=
      .tell (by simp [OptionSite.startEntry])
    exact (hstart.trans h.2).trans (.tell (by simp [OptionSite.endEntry]))
  abandon {_ s _ name active _ _} hnested hcache hpush hbody h := by
    refine ⟨setup.bracketed_grows.abandon (fun name s => (hnested name s).1) hcache hpush
      hbody h.1, ?_⟩
    exact (setup.caches_opening name active.depth s.cache).trans h.2
  complete {_ s t name active _ state?} hnested hcache hpush hbody h := by
    refine ⟨setup.bracketed_grows.complete (fun name s => (hnested name s).1) hcache hpush
      hbody h.1, ?_⟩
    -- the section has been active all the time, so that nothing has completed it
    obtain ⟨-, hstack⟩ := ActiveSections.push_eq_ok_iff.1 hpush
    have hnone : t.cache.get? name = none := h.1.spares (by simp [hstack]) hcache
    have hleft := Caches.leave (s := { t with active := t.active.pop name }) hnone
      (isSome_iff_hasSection hbody) active.depth (state?.getD ∅).size
    exact ((setup.caches_opening name active.depth s.cache).trans h.2).trans hleft

variable {setup}

theorem caches_evaluateWithin (budget : Nat) (name : String) (s : Session) :
    setup.Caches s.cache (setup.evaluateWithin budget name s).journal
      (setup.evaluateWithin budget name s).state.cache :=
  (setup.bracketed_caches.evaluateWithin budget name s).2

/-- Nothing within the evaluation of a section completes it. -/
theorem get?_evalBody (setup : Setup) (budget : Nat) {name : String} {s : Session}
    {active : ActiveSections} (hnone : s.cache.get? name = none)
    (hpush : s.active.push name = .ok active) :
    (setup.evalBody (setup.evaluateWithin budget) name { s with active }).state.cache.get? name =
      none := by
  obtain ⟨-, hstack⟩ := ActiveSections.push_eq_ok_iff.1 hpush
  exact (setup.bracketed_grows.evalBody (setup.grows_evaluateWithin budget) name
    { s with active }).spares (by simp [hstack]) hnone

/-- A section that is evaluated is cached afterwards exactly if it exists and has a state, which is
the cached one. -/
theorem get?_visit_iff {budget : Nat} {name : String} {s : Session} {state : SectionState}
    (hnone : s.cache.get? name = none) :
    (setup.visit (setup.evaluateWithin budget) name s).state.cache.get? name = some state ↔
      (setup.visit (setup.evaluateWithin budget) name s).result = .ok state ∧
        setup.document.hasSection name := by
  cases hpush : s.active.push name with
  | error fault => simp [visit_of_active setup hnone hpush, hnone]
  | ok active =>
    have hspared := setup.get?_evalBody budget hnone hpush
    rw [visit_of_entered setup hnone hpush]
    generalize hbody : setup.evalBody (setup.evaluateWithin budget) name { s with active } = body
      at hspared ⊢
    obtain ⟨_ | state?, t, journal⟩ := body
    · simp [hspared]
    · cases state? with
      | none =>
        have habsent := isSome_iff_hasSection hbody
        simp only [leave, hspared]
        simp [← habsent]
      | some final =>
        have hexists := (isSome_iff_hasSection hbody).1 rfl
        simp [leave, hexists]

end Setup

end IniCompose
