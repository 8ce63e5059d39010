import IniCompose.Proofs.Document.RoundTrip
import IniCompose.Proofs.Engine.Steps

/-!
# Writing what sections evaluate to

Whatever handlers make of its sections, the collapsed document of an engine is the text of the
states that they evaluate to, one after the other. It is read back as these, each with its options
in order and under their own keys, if the states can be written and no option is misread.
-/
namespace IniCompose

namespace Engine

variable {engine : Engine} {entries : List (String × SectionState)}

/-- Evaluated one after the other, the sections give these states. -/
def Yields : Engine → List (String × SectionState) → Prop
  | _, [] => True
  | engine, entry :: rest =>
    (evaluate entry.1 engine).result = .ok entry.2 ∧
      Yields (evaluate entry.1 engine).state rest

/-- What is written of evaluated sections. -/
def writtenOf (entries : List (String × SectionState)) : List (String × Options) :=
  entries.map fun entry => (entry.1, entry.2.options)

theorem map_fst_writtenOf (entries : List (String × SectionState)) :
    (writtenOf entries).map Prod.fst = entries.map Prod.fst := by
  simp [writtenOf]

theorem sectionsText_writtenOf_cons (separator : String) (entry : String × SectionState)
    (rest : List (String × SectionState)) :
    Document.sectionsText separator (writtenOf (entry :: rest)) =
      separator ++ Document.sectionText entry.1 entry.2.options ++
        Document.sectionsText "\n" (writtenOf rest) := rfl

/-- Induction on the sections to be written. -/
theorem writeSections_eq_ok_iff {names : List String} {separator written after : String} :
    (writeSections Destination.text separator names (engine, written)).result = .ok () ∧
        (writeSections Destination.text separator names (engine, written)).state.2 = after ↔
      ∃ entries, entries.map Prod.fst = names ∧ engine.Yields entries ∧
        after = written ++ Document.sectionsText separator (writtenOf entries) := by
  induction names generalizing engine separator written with
  | nil =>
    constructor
    · rintro ⟨-, rfl⟩
      exact ⟨[], rfl, trivial, (String.append_empty).symm⟩
    · rintro ⟨entries, hnames, -, rfl⟩
      obtain rfl := List.map_eq_nil_iff.1 hnames
      exact ⟨rfl, (String.append_empty).symm⟩
  | cons name rest ih =>
    rw [writeSections_cons]
    cases hresult : (evaluate name engine).result with
    | error fault =>
      simp only [hresult, false_and, reduceCtorEq, false_iff]
      rintro ⟨_ | ⟨entry, entries⟩, hnames, hyields, -⟩
      · cases hnames
      · obtain ⟨rfl, -⟩ := List.cons.inj hnames
        cases hresult.symm.trans hyields.1
    | ok state =>
      simp only [hresult, Destination.put_text]
      refine ih.trans ⟨?_, ?_⟩
      · rintro ⟨entries, hnames, hyields, htext⟩
        refine ⟨(name, state) :: entries, by simp [hnames], ⟨hresult, hyields⟩, ?_⟩
        simp only [htext, sectionsText_writtenOf_cons, String.append_assoc]
      · rintro ⟨_ | ⟨entry, entries⟩, hnames, hyields, htext⟩
        · cases hnames
        · obtain ⟨rfl, hrest⟩ := List.cons.inj hnames
          cases hresult.symm.trans hyields.1
          refine ⟨entries, hrest, hyields.2, ?_⟩
          simp only [htext, sectionsText_writtenOf_cons, String.append_assoc]

/-- The collapsed document is the text of what the sections evaluate to, one after the other. -/
theorem collapse_eq_ok_iff {written : String} :
    (collapse engine).result = .ok written ↔
      ∃ entries, entries.map Prod.fst = engine.document.names ∧ engine.Yields entries ∧
        written = Document.sectionsText "" (writtenOf entries) := by
  have hwritten : (collapse engine).result =
      (write Destination.text (engine, "")).result.map fun _ =>
        (write Destination.text (engine, "")).state.2 := rfl
  have hsections := @writeSections_eq_ok_iff engine engine.document.names "" "" written
  rw [hwritten, write_apply]
  simp only [String.empty_append] at hsections
  rw [← hsections]
  generalize writeSections Destination.text "" engine.document.names (engine, "") = outcome
  obtain ⟨_ | _, after, journal⟩ := outcome <;> simp [Except.bind, Except.map]

/-! ## Engines that yield given states -/

/-- The handler that gives each section a state of its own. -/
def assigning (states : OrderedMap SectionState) : Handler := fun site =>
  Program.setState (states.getD site.sectionName ∅)

/-- One option, which no handler of an operation takes. -/
def untaken : Options := .ofList [("k", "")]

/-- An engine whose sections evaluate to the given states. -/
def yielding (states : OrderedMap SectionState) : Engine :=
  .ordinary
    ⟨⟨states.entries.map fun entry => (entry.1, untaken), by
      simpa [Function.comp_def] using states.nodup_keys⟩⟩
    (Registry.bare.withGeneric (assigning states))

variable {states : OrderedMap SectionState} {name : String} {state : SectionState}

theorem names_yielding (states : OrderedMap SectionState) :
    (yielding states).document.names = states.keys := by
  simp [yielding, ordinary, Document.names, OrderedMap.keys, Function.comp_def]

theorem options?_yielding (h : (name, state) ∈ states.entries) :
    (yielding states).document.options? name = some untaken := by
  refine OrderedMap.get?_of_mem_entries ?_
  exact List.mem_map.2 ⟨_, h, rfl⟩

theorem evalOptions_yielding (h : (name, state) ∈ states.entries) (nested : Evaluator)
    (s : Session) :
    ((yielding states).evalOptions nested name untaken.entries ∅ s).result = .ok state ∧
      ((yielding states).evalOptions nested name untaken.entries ∅ s).state = s := by
  have hstate : states.getD name ∅ = state := by
    rw [OrderedMap.getD, OrderedMap.get?_of_mem_entries h]
    rfl
  rw [← hstate]
  exact ⟨rfl, rfl⟩

theorem evaluate_yielding (hsetup : engine.toSetup = (yielding states).toSetup)
    (hmem : (name, state) ∈ states.entries) (hcache : engine.cache.get? name = none) :
    (evaluate name engine).result = .ok state ∧
      (evaluate name engine).state.cache = engine.cache.insert name state := by
  have hpush : (∅ : ActiveSections).push name = .ok ⟨[name], by simp⟩ :=
    ActiveSections.push_eq_ok_iff.2 ⟨List.not_mem_nil, rfl⟩
  rw [evaluate_of_uncached hcache]
  simp only [inSession, hsetup, Setup.evaluate, Setup.evaluateWithin]
  rw [Setup.visit_of_entered _ hcache hpush, Setup.evalBody_of_some _ (options?_yielding hmem)]
  obtain ⟨hresult, hstate⟩ := evalOptions_yielding hmem
    ((yielding states).evaluateWithin (yielding states).document.size)
    { cache := engine.cache, active := ⟨[name], by simp⟩ }
  simp only [hresult, hstate, Except.map, Setup.leave, Option.getD_some, and_self]

/-- Induction on the sections that are still to be evaluated. -/
theorem yields_yielding (hsetup : engine.toSetup = (yielding states).toSetup)
    (hmem : ∀ entry ∈ entries, entry ∈ states.entries) (hnodup : (entries.map Prod.fst).Nodup)
    (hcache : ∀ entry ∈ entries, engine.cache.get? entry.1 = none) : engine.Yields entries := by
  induction entries generalizing engine with
  | nil => trivial
  | cons entry rest ih =>
    obtain ⟨hnew, hrest⟩ := List.nodup_cons.1 hnodup
    obtain ⟨hresult, hafter⟩ := evaluate_yielding hsetup (hmem entry (by simp))
      (hcache entry (by simp))
    refine ⟨hresult, ih ((toSetup_evaluate _ _).trans hsetup)
      (fun other hother => hmem other (by simp [hother])) hrest fun other hother => ?_⟩
    have hne : other.1 ≠ entry.1 := fun h => hnew (h ▸ List.mem_map_of_mem hother)
    rw [hafter, OrderedMap.get?_insert, if_neg hne]
    exact hcache other (by simp [hother])

/-! ## Reading back -/

/-- Sections whose states can be written, none of whose options is misread, make a document that is
read back from its text, in which no key has a suffix. Whatever the handlers are, this text is
what is written of an engine whose sections evaluate to these states, and there are handlers and a
document for which they do. -/
theorem parse_collapse {states : OrderedMap SectionState}
    (h : ∀ entry ∈ states.entries, NormalName entry.1 ∧
      ∀ option ∈ entry.2.options.entries, NormalOption option ∧ ¬ Misread option) :
    ∃ document : Document,
      document.sections.entries = writtenOf states.entries ∧
      (∀ entry ∈ document.sections.entries, ∀ option ∈ entry.2.entries,
        StoredKey.split option.1 = (option.1, none)) ∧
      (∀ origin, Document.parse document.text origin = .ok document) ∧
      (∀ engine : Engine, engine.document.names = states.keys → engine.Yields states.entries →
        (collapse engine).result = .ok document.text) ∧
      ∃ engine : Engine, engine.document.names = states.keys ∧ engine.Yields states.entries := by
  have hwritten : ∀ entry ∈ writtenOf states.entries, NormalName entry.1 ∧
      ∀ option ∈ entry.2.entries, NormalOption option ∧ ¬ Misread option := by
    intro entry hentry
    obtain ⟨evaluated, hevaluated, rfl⟩ := List.mem_map.1 hentry
    exact h evaluated hevaluated
  have hnodup : ((writtenOf states.entries).map Prod.fst).Nodup :=
    (map_fst_writtenOf states.entries).symm ▸ states.nodup_keys
  refine ⟨⟨⟨writtenOf states.entries, hnodup⟩⟩, rfl, ?_, ?_, ?_, ?_⟩
  · intro entry hentry option hoption
    exact StoredKey.split_of_notMem ((hwritten entry hentry).2 option hoption).1.key.colon_notMem
  · refine Document.parse_text (fun entry hentry => ?_) fun entry hentry option hoption => ?_
    · obtain ⟨hname, hoptions⟩ := hwritten entry hentry
      exact ⟨hname, fun option hoption => (hoptions option hoption).1⟩
    · exact ((hwritten entry hentry).2 option hoption).2
  · intro engine hnames hyields
    exact collapse_eq_ok_iff.2 ⟨states.entries, hnames.symm, hyields, rfl⟩
  · exact ⟨yielding states, names_yielding states,
      yields_yielding rfl (fun _ hmem => hmem) states.nodup_keys fun _ _ => rfl⟩

/-- Brackets, quotation marks, comment characters and empty lines where they do no harm. -/
def guarded : OrderedMap SectionState :=
  .ofList [("a] #", ⟨.ofList [("[k] \"x", "# y\n\nz = ]"), ("q'", "")], []⟩), ("[;]", ∅)]

theorem parse_collapse_guarded :
    ∃ engine document, document.sections.entries = writtenOf guarded.entries ∧
      (collapse engine).result = .ok "[a] #]\n[k] \"x: # y\n\n    z = ]\nq':\n\n[[;]]\n" ∧
      Document.parse "[a] #]\n[k] \"x: # y\n\n    z = ]\nq':\n\n[[;]]\n" "written" =
        .ok document := by
  have hfirst : NormalOption ("[k] \"x", "# y\n\nz = ]") := by
    refine ⟨⟨by decide, by simp [Line.Uncommented], by simp [Line.isDelimiter], by decide⟩,
      by decide, .inr ?_⟩
    have hlast : Line.Normal "z = ]".toList :=
      ⟨by decide, by decide, by simp [Line.Uncommented], by decide⟩
    refine ⟨"# y".toList, [[], "z = ]".toList], ⟨by decide, by decide, by decide, ?_, by decide⟩,
      by decide⟩
    exact List.forall_mem_cons.2 ⟨.inl rfl, List.forall_mem_singleton.2 (.inr hlast)⟩
  have hsecond : NormalOption ("q'", "") :=
    ⟨⟨by decide, by simp [Line.Uncommented], by simp [Line.isDelimiter], by decide⟩, by decide,
      .inl rfl⟩
  have hguarded : ∀ entry ∈ guarded.entries, NormalName entry.1 ∧
      ∀ option ∈ entry.2.options.entries, NormalOption option ∧ ¬ Misread option := by
    rintro entry (_ | ⟨_, _ | ⟨_, ⟨⟩⟩⟩)
    · refine ⟨⟨by decide, by decide, by decide⟩, ?_⟩
      rintro option (_ | ⟨_, _ | ⟨_, ⟨⟩⟩⟩)
      · exact ⟨hfirst, by decide⟩
      · exact ⟨hsecond, by decide⟩
    · exact ⟨⟨by decide, by decide, by decide⟩, List.forall_mem_nil _⟩
  obtain ⟨document, hentries, -, hparse, hcollapse, engine, hnames, hyields⟩ :=
    parse_collapse hguarded
  have htext : document.text = "[a] #]\n[k] \"x: # y\n\n    z = ]\nq':\n\n[[;]]\n" := by
    rw [Document.text, hentries]
    rfl
  rw [← htext]
  exact ⟨engine, document, hentries, hcollapse engine hnames hyields, hparse "written"⟩

end Engine

end IniCompose
