import IniCompose.Proofs.Evaluation.Kept
import IniCompose.Proofs.Registry.Handlers

/-!
# Two runs in step

Two evaluations of the same options, over two setups and with requests answered by two evaluators,
go through the same steps as long as their handlers are answered alike. What is compared is left
open: how the sessions are related, how the journals compare, and what in the journals shows that
the runs may have parted, after which nothing more is said about them.
-/
namespace IniCompose

/-- How two runs are compared. -/
structure Comparison where
  related : Session → Session → Prop
  alike : Journal → Journal → Prop
  /-- The runs may have parted. -/
  parted : Journal → Journal → Prop

namespace Comparison

/-- Sessions whose section is in the same state. -/
def relatedIn (c : Comparison) (s s' : Session × SectionState) : Prop :=
  c.related s.1 s'.1 ∧ s.2 = s'.2

/-- The runs have parted, or they have the same result, related states and like journals. -/
def Matches (c : Comparison) {σ ε α : Type} (related : σ → σ → Prop)
    (o o' : Outcome σ ε α) : Prop :=
  c.parted o.journal o'.journal ∨
    o.result = o'.result ∧ related o.state o'.state ∧ c.alike o.journal o'.journal

theorem Matches.map {c : Comparison} {σ ε ε' α β : Type} {related : σ → σ → Prop}
    {o o' : Outcome σ ε α} (h : c.Matches related o o') (f : Except ε α → Except ε' β) :
    c.Matches related ⟨f o.result, o.state, o.journal⟩ ⟨f o'.result, o'.state, o'.journal⟩ :=
  h.imp_right fun h => ⟨congrArg f h.1, h.2⟩

/-- The steps of an evaluation match over two setups, if handlers make no requests but the allowed
ones. -/
structure Laws (c : Comparison) (first second : Setup) (allowed : Request → Prop) : Prop where
  registry : second.registry = first.registry
  alike_nil : c.alike [] []
  alike_append : ∀ {j j' k k'}, c.alike j j' → c.alike k k' → c.alike (j ++ k) (j' ++ k')
  parted_append : ∀ {j j'} (k k'), c.parted j j' → c.parted (j ++ k) (j' ++ k')
  parted_after : ∀ {k k'} (j j'), c.parted k k' → c.parted (j ++ k) (j' ++ k')
  entry : ∀ {s s'}, c.related s s' → ∀ kind name details,
    kind ≠ .warning → kind ≠ .sectionEntry → kind ≠ .sectionExit →
    c.alike [.entry ⟨kind, name, s.active.depth, details⟩]
      [.entry ⟨kind, name, s'.active.depth, details⟩]
  custom : ∀ {s s'}, c.related s s' → ∀ kind name details,
    c.alike [.custom ⟨kind, name, s.active.depth, details⟩]
      [.custom ⟨kind, name, s'.active.depth, details⟩]
  note : ∀ text, c.alike [.note text] [.note text]
  notice : ∀ level text, c.alike (first.debugNotice level text) (second.debugNotice level text)
  depth : allowed .depth → ∀ {s s'}, c.related s s' → s.active.depth = s'.active.depth
  settings : allowed .settings → first.settings = second.settings
  report : ∀ {s s'}, c.related s s' → ∀ severity fault,
    allowed (.report severity fault) ∨ severity = fault.severity →
    c.Matches c.related (first.report severity fault s) (second.report severity fault s')
  settle : ∀ {s s'}, c.related s s' → ∀ site error,
    c.Matches c.related (first.settle site error s) (second.settle site error s')

end Comparison

theorem Journaled.exists_journal_bind {σ ε α β : Type} (x : Journaled σ ε α)
    (next : α → Journaled σ ε β) (s : σ) :
    ∃ k, ((x >>= next) s).journal = (x s).journal ++ k := by
  rw [bind_apply]
  cases (x s).result with
  | ok a => exact ⟨_, rfl⟩
  | error e => exact ⟨[], by simp⟩

namespace Comparison.Laws

variable {c : Comparison} {first second : Setup} {allowed : Request → Prop}

theorem bind (h : c.Laws first second allowed) {σ ε α β : Type} {related : σ → σ → Prop}
    {x x' : Journaled σ ε α} {next next' : α → Journaled σ ε β} {s s' : σ}
    (hx : c.Matches related (x s) (x' s'))
    (hnext : ∀ a t t', related t t' → c.Matches related (next a t) (next' a t')) :
    c.Matches related ((x >>= next) s) ((x' >>= next') s') := by
  rcases hx with hparted | ⟨hresult, hstate, halike⟩
  · obtain ⟨k, hk⟩ := Journaled.exists_journal_bind x next s
    obtain ⟨k', hk'⟩ := Journaled.exists_journal_bind x' next' s'
    rw [Matches, hk, hk']
    exact .inl (h.parted_append k k' hparted)
  · rw [Journaled.bind_apply, Journaled.bind_apply, ← hresult]
    cases (x s).result with
    | error e => exact .inr ⟨rfl, hstate, halike⟩
    | ok a =>
      rcases hnext a _ _ hstate with hparted | ⟨hresult', hstate', halike'⟩
      · exact .inl (h.parted_after _ _ hparted)
      · exact .inr ⟨hresult', hstate', h.alike_append halike halike'⟩

section

variable {nested nested' : Evaluator}
  (hnested : ∀ name {s s'}, c.related s s' → c.Matches c.related (nested name s) (nested' name s'))

include hnested

theorem answer (h : c.Laws first second allowed) {request : Request} (hallowed : allowed request)
    {s s' : Session × SectionState} (hs : c.relatedIn s s') :
    c.Matches c.relatedIn (first.answer nested request s) (second.answer nested' request s') := by
  have hstay : ∀ {j j'}, c.alike j j' → c.relatedIn s s' ∧ c.alike j j' := fun hj => ⟨hs, hj⟩
  cases request with
  | state => exact .inr ⟨congrArg Except.ok hs.2, hstay h.alike_nil⟩
  | setState state => exact .inr ⟨rfl, ⟨hs.1, rfl⟩, h.alike_nil⟩
  | evaluate name =>
    rcases hnested name hs.1 with hparted | ⟨hresult, hstate, halike⟩
    · exact .inl hparted
    · exact .inr ⟨congrArg Except.ok hresult, ⟨hstate, hs.2⟩, halike⟩
  | report severity fault =>
    rcases h.report hs.1 severity fault (.inl hallowed) with hparted | ⟨hresult, hstate, halike⟩
    · exact .inl hparted
    · exact .inr ⟨congrArg Except.ok hresult, ⟨hstate, hs.2⟩, halike⟩
  | record kind name details => exact .inr ⟨rfl, hstay (h.custom hs.1 _ _ _)⟩
  | depth => exact .inr ⟨congrArg Except.ok (h.depth hallowed hs.1), hstay h.alike_nil⟩
  | settings => exact .inr ⟨congrArg Except.ok (h.settings hallowed), hstay h.alike_nil⟩
  | debug level text =>
    simp only [Setup.answer, Setup.debug_apply]
    exact .inr ⟨rfl, hstay (h.notice level text)⟩
  | note text => exact .inr ⟨rfl, hstay (h.note text)⟩

/-- Induction on the program: like answers, then the rest. -/
theorem run (h : c.Laws first second allowed) {α : Type} {program : Program α}
    (hprogram : program.Only allowed) {s s' : Session × SectionState} (hs : c.relatedIn s s') :
    c.Matches c.relatedIn (first.run nested program s) (second.run nested' program s') := by
  induction program generalizing s s' with
  | done a => exact .inr ⟨rfl, hs, h.alike_nil⟩
  | fail error => exact .inr ⟨rfl, hs, h.alike_nil⟩
  | ask request next ih =>
    rw [Setup.run_ask, Setup.run_ask]
    exact h.bind (h.answer hnested hprogram.1 hs) fun answer t t' ht =>
      ih answer (hprogram.2 answer) ht

theorem dispatch (h : c.Laws first second allowed) {handler : Handler} {site : OptionSite}
    (hhandler : (handler site).Only allowed) (state : SectionState) {s s' : Session}
    (hs : c.related s s') :
    c.Matches c.related (first.dispatch nested handler site state s)
      (second.dispatch nested' handler site state s') := by
  have hbefore : c.relatedIn (s, state) (s', state) := ⟨hs, rfl⟩
  have hrun := h.run hnested hhandler hbefore
  have hstart := h.entry hs .handlerEntry (site.key.operation.getD Setup.genericOperation)
    (.ofList [("section", site.sectionName), ("key", site.rawKey)])
    (by simp) (by simp) (by simp)
  have hend (status : String) := h.entry hs .handlerExit
    (site.key.operation.getD Setup.genericOperation) (.ofList [("status", status)])
    (by simp) (by simp) (by simp)
  rw [Setup.dispatch_apply, Setup.dispatch_apply]
  dsimp only
  generalize first.run nested (handler site) (s, state) = outcome at hrun ⊢
  generalize second.run nested' (handler site) (s', state) = outcome' at hrun ⊢
  obtain ⟨result, ⟨t, left⟩, journal⟩ := outcome
  obtain ⟨result', ⟨t', left'⟩, journal'⟩ := outcome'
  rcases hrun with hparted | ⟨hresult, ⟨ht, hleft⟩, halike⟩
  · have hparted' (k k') := h.parted_append k k' (h.parted_after
      [.entry (site.startEntry s.active.depth)] [.entry (site.startEntry s'.active.depth)] hparted)
    refine .inl ?_
    cases result <;> cases result' <;> exact hparted' _ _
  · dsimp only at hresult hleft halike ht
    subst hresult hleft
    have hdone := h.alike_append hstart halike
    cases result with
    | ok _ => exact .inr ⟨rfl, ht, h.alike_append hdone (hend "ok")⟩
    | error error =>
      rcases h.settle ht site error with hparted | ⟨hresult, hstate, halike'⟩
      · exact .inl (h.parted_after _ _ (h.parted_after [_] [_] hparted))
      · refine .inr ⟨congrArg (Except.map fun _ => left) hresult, hstate, ?_⟩
        exact h.alike_append hdone (h.alike_append (hend "error") halike')

theorem evalOption (h : c.Laws first second allowed) (honly : first.registry.Only allowed)
    (sectionName stored value : String) (state : SectionState) {s s' : Session}
    (hs : c.related s s') :
    c.Matches c.related (first.evalOption nested sectionName stored value state s)
      (second.evalOption nested' sectionName stored value state s') := by
  have hregistry := h.registry
  cases hresolve : first.registry.resolveKey sectionName stored with
  | error fault =>
    rw [Setup.evalOption_of_error first hresolve,
      Setup.evalOption_of_error second (hregistry ▸ hresolve)]
    exact (h.report hs fault.severity fault (.inr rfl)).map (Except.map fun _ => state)
  | ok resolved =>
    cases hhandler : (resolved.handler <|> first.registry.generic) with
    | some handler =>
      rw [Setup.evalOption_of_handler first hresolve hhandler,
        Setup.evalOption_of_handler second (hregistry ▸ hresolve) (hregistry ▸ hhandler)]
      have hheld := Registry.holds_of_resolveKey hresolve hhandler
      exact h.dispatch hnested (honly handler hheld _) state hs
    | none =>
      rw [Setup.evalOption_of_none first hresolve hhandler,
        Setup.evalOption_of_none second (hregistry ▸ hresolve) (hregistry ▸ hhandler)]
      exact .inr ⟨rfl, hs, h.entry hs _ _ _ (by simp) (by simp) (by simp)⟩

/-- Induction on the options. -/
theorem evalOptions (h : c.Laws first second allowed) (honly : first.registry.Only allowed)
    (sectionName : String) (options : List (String × String)) (state : SectionState)
    {s s' : Session} (hs : c.related s s') :
    c.Matches c.related (first.evalOptions nested sectionName options state s)
      (second.evalOptions nested' sectionName options state s') := by
  induction options generalizing state s s' with
  | nil => exact .inr ⟨rfl, hs, h.alike_nil⟩
  | cons option rest ih =>
    exact h.bind (h.evalOption hnested honly sectionName option.1 option.2 state hs)
      fun next t t' ht => ih next ht

theorem evalBody (h : c.Laws first second allowed) (honly : first.registry.Only allowed)
    {name : String} (hoptions : second.document.options? name = first.document.options? name)
    {s s' : Session} (hs : c.related s s') :
    c.Matches c.related (first.evalBody nested name s) (second.evalBody nested' name s') := by
  cases hsome : first.document.options? name with
  | some options =>
    rw [Setup.evalBody_of_some first hsome, Setup.evalBody_of_some second (hoptions.trans hsome)]
    exact (h.evalOptions hnested honly name options.entries ∅ hs).map (Except.map some)
  | none =>
    rw [Setup.evalBody_of_none first hsome, Setup.evalBody_of_none second (hoptions.trans hsome)]
    exact (h.report hs .serious (.sectionNotFound name) (.inr rfl)).map
      (Except.map fun _ => none)

end

end Comparison.Laws

/-! ## Equal runs -/

/-- A property of sessions that putting faults to the policy keeps. -/
structure Setup.Steady (setup : Setup) (allowed : Request → Prop) (wanted : Session → Prop) :
    Prop where
  report : ∀ {s}, wanted s → ∀ severity fault,
    allowed (.report severity fault) ∨ severity = fault.severity →
    wanted (setup.report severity fault s).state
  settle : ∀ {s}, wanted s → ∀ site error, wanted (setup.settle site error s).state

namespace Comparison

/-- Two equal runs over one setup, in sessions as wanted, until the journal is broken. -/
def same (wanted : Session → Prop) (broken : Journal → Prop) : Comparison where
  related s s' := s = s' ∧ wanted s
  alike j j' := j = j'
  parted j _ := broken j

variable {wanted : Session → Prop} {broken : Journal → Prop}

theorem same_matches {ε α : Type} {outcome : Outcome Session ε α}
    (h : ¬ broken outcome.journal → wanted outcome.state) :
    (same wanted broken).Matches (same wanted broken).related outcome outcome := by
  by_cases hbroken : broken outcome.journal
  · exact .inl hbroken
  · exact .inr ⟨rfl, ⟨rfl, h hbroken⟩, rfl⟩

theorem Matches.eq_of_same {ε α : Type} {outcome outcome' : Outcome Session ε α}
    (h : (same wanted broken).Matches (same wanted broken).related outcome outcome')
    (hbroken : ¬ broken outcome.journal) : outcome = outcome' ∧ wanted outcome.state := by
  obtain hparted | ⟨hresult, ⟨hstate, hwanted⟩, hjournal⟩ := h
  · exact absurd hparted hbroken
  · exact ⟨Outcome.ext hresult hstate hjournal, hwanted⟩

theorem same_laws {setup : Setup} {allowed : Request → Prop} (h : setup.Steady allowed wanted)
    (happend : ∀ {j k}, broken j ∨ broken k → broken (j ++ k)) :
    (same wanted broken).Laws setup setup allowed where
  registry := rfl
  alike_nil := rfl
  alike_append hj hk := hj ▸ hk ▸ rfl
  parted_append _ _ hj := happend (.inl hj)
  parted_after _ _ hk := happend (.inr hk)
  entry hs _ _ _ _ _ _ := hs.1 ▸ rfl
  custom hs _ _ _ := hs.1 ▸ rfl
  note _ := rfl
  notice _ _ := rfl
  depth _ _ _ hs := hs.1 ▸ rfl
  settings _ := rfl
  report {s _} hs severity fault hallowed := by
    obtain ⟨rfl, hwanted⟩ := hs
    exact same_matches fun _ => h.report hwanted severity fault hallowed
  settle {s _} hs site error := by
    obtain ⟨rfl, hwanted⟩ := hs
    exact same_matches fun _ => h.settle hwanted site error

end Comparison

end IniCompose
