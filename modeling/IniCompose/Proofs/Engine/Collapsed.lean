import IniCompose.Proofs.Composition.Assigned
import IniCompose.Proofs.Document.Misreading
import IniCompose.Proofs.Engine.Yielded

/-!
# Reading the collapsed document

The collapsed document is the text of the evaluated sections. It is read back as these, and
evaluates to them without handlers, exactly if none of their options is misread.
-/
namespace IniCompose

namespace Engine

variable {engine : Engine}

/-- A document whose sections are those of an engine, evaluated. -/
structure Collapsed (engine : Engine) (collapsed : Document) : Prop where
  names : collapsed.names = engine.document.names
  evaluated : ∀ entry ∈ collapsed.sections.entries, ∃ state,
    (evaluate entry.1 engine).result = .ok state ∧ entry.2 = state.options

/-- Induction on the sections: what is evaluated before leaves the results of those that follow as
they are. -/
theorem Yields.result_evaluate (hcomposes : engine.registry.Composes)
    (hsound : engine.SoundCache engine.cache) {entries : List (String × SectionState)}
    (h : engine.Yields entries) :
    ∀ entry ∈ entries, (evaluate entry.1 engine).result = .ok entry.2 := by
  induction entries generalizing engine with
  | nil => simp
  | cons first rest ih =>
    obtain ⟨hresult, hrest⟩ := h
    have hkept := toSetup_evaluate first.1 engine
    have hsound' := soundCache_evaluate hcomposes hsound first.1
    refine List.forall_mem_cons.2 ⟨hresult, fun entry hentry => ?_⟩
    rw [result_evaluate_eq _ hkept hcomposes hsound hsound' entry.1]
    exact ih (hkept ▸ hcomposes) hsound' hrest entry hentry

/-- The collapsed document is the text of the evaluated sections. -/
theorem collapse_eq_ok (hcomposes : engine.registry.Composes)
    (hsound : engine.SoundCache engine.cache) {written : String}
    (h : (collapse engine).result = .ok written) :
    ∃ collapsed, Collapsed engine collapsed ∧ written = collapsed.text := by
  obtain ⟨entries, hnames, hyields, rfl⟩ := collapse_eq_ok_iff.1 h
  have hnodup : ((writtenOf entries).map Prod.fst).Nodup := by
    rw [map_fst_writtenOf, hnames]
    exact engine.document.sections.keys_nodup
  refine ⟨⟨⟨writtenOf entries, hnodup⟩⟩, ⟨(map_fst_writtenOf entries).trans hnames, ?_⟩, rfl⟩
  intro entry hentry
  obtain ⟨evaluated, hevaluated, rfl⟩ := List.mem_map.1 hentry
  exact ⟨evaluated.2, hyields.result_evaluate hcomposes hsound evaluated hevaluated, rfl⟩

/-- The collapsed document of what has been read from a text can be written. -/
theorem Collapsed.writable {collapsed : Document} (h : Collapsed engine collapsed)
    (hcomposes : engine.registry.Composes) (hsound : engine.SoundCache engine.cache)
    (hdocument : engine.document.Normal) : collapsed.Writable := by
  intro entry hentry
  obtain ⟨state, hresult, hoptions⟩ := h.evaluated entry hentry
  refine ⟨?_, ?_⟩
  · have hname : entry.1 ∈ engine.document.names := h.names ▸ List.mem_map_of_mem hentry
    obtain ⟨other, hother, heq⟩ := List.mem_map.1 hname
    exact heq ▸ (hdocument other hother).1
  · rw [hoptions]
    exact normalOption_of_evaluate hcomposes hsound hdocument hresult

/-! ## What is read back -/

/-- A document has the sections of an engine, each with the options that the engine evaluates it to,
and without handlers it evaluates to these options too. -/
structure Recovers (engine : Engine) (reread : Document) : Prop where
  names : reread.names = engine.document.names
  options : ∀ name ∈ engine.document.names, ∃ state,
    (evaluate name engine).result = .ok state ∧ reread.options? name = some state.options
  bare : ∀ settings fresh, ofDocument reread .bare settings = .ok fresh →
    ∀ name ∈ engine.document.names, ∃ state again,
      (evaluate name engine).result = .ok state ∧ (evaluate name fresh).result = .ok again ∧
        again.options = state.options

theorem Collapsed.exists_options {collapsed : Document} (h : Collapsed engine collapsed)
    {name : String} (hname : name ∈ engine.document.names) :
    ∃ state, (evaluate name engine).result = .ok state ∧
      collapsed.options? name = some state.options ∧
      (name, state.options) ∈ collapsed.sections.entries := by
  rw [← h.names] at hname
  obtain ⟨⟨_, options⟩, hentry, rfl⟩ := List.mem_map.1 hname
  obtain ⟨state, hresult, rfl⟩ := h.evaluated _ hentry
  exact ⟨state, hresult, OrderedMap.get?_of_mem_entries hentry, hentry⟩

theorem Collapsed.recovers {collapsed : Document} (h : Collapsed engine collapsed)
    (hwritable : collapsed.Writable) : Recovers engine collapsed := by
  refine ⟨h.names, ?_, ?_⟩
  · intro name hname
    obtain ⟨state, hresult, hoptions, -⟩ := h.exists_options hname
    exact ⟨state, hresult, hoptions⟩
  · intro settings fresh hfresh name hname
    obtain ⟨state, hresult, hoptions, hentry⟩ := h.exists_options hname
    obtain ⟨hdocument, hregistry, -, hcache⟩ := ofDocument_eq_ok hfresh
    have hsound : fresh.SoundCache fresh.cache := by
      rw [hcache]
      exact Setup.soundCache_empty
    exact ⟨state, _, hresult, evaluate_bare hregistry hsound (hdocument ▸ hoptions)
      (hwritable _ hentry).2, rfl⟩

/-- Nothing else has the sections of an engine. -/
theorem Collapsed.eq_of_recovers {collapsed reread : Document} (h : Collapsed engine collapsed)
    (hrecovers : Recovers engine reread) : reread = collapsed := by
  obtain ⟨sections⟩ := reread
  obtain ⟨others⟩ := collapsed
  refine congrArg Document.mk (OrderedMap.ext_get? (hrecovers.names.trans h.names.symm) ?_)
  intro name hname
  replace hname : name ∈ engine.document.names := hrecovers.names ▸ hname
  obtain ⟨state, hresult, hoptions⟩ := hrecovers.options name hname
  obtain ⟨state', hresult', hoptions', -⟩ := h.exists_options hname
  cases hresult.symm.trans hresult'
  exact hoptions.trans hoptions'.symm

/-- The collapsed document is read back exactly if no option of an evaluated section is misread. -/
theorem collapse_rereads_iff (hreached : Reached .standard engine) {source origin : String}
    (hsource : Document.parse source origin = .ok engine.document) {written : String}
    (hwritten : (collapse engine).result = .ok written) (again : String) :
    (∃ reread, Document.parse written again = .ok reread ∧ Recovers engine reread) ↔
      ∀ name ∈ engine.document.names, ∀ state, (evaluate name engine).result = .ok state →
        ∀ option ∈ state.options.entries, ¬ Misread option := by
  obtain ⟨hregistry, hsound⟩ := hreached.soundCache Registry.composes_standard
  have hcomposes : engine.registry.Composes := hregistry ▸ Registry.composes_standard
  obtain ⟨collapsed, hcollapsed, rfl⟩ := collapse_eq_ok hcomposes hsound hwritten
  have hwritable := hcollapsed.writable hcomposes hsound (Document.normal_of_parse hsource)
  have hread := Document.parse_text_iff hwritable again
  constructor
  · rintro ⟨reread, hparse, hrecovers⟩ name hname state hresult
    obtain rfl := hcollapsed.eq_of_recovers hrecovers
    obtain ⟨state', hresult', -, hentry⟩ := hcollapsed.exists_options hname
    cases hresult.symm.trans hresult'
    exact hread.1 hparse _ hentry
  · intro hclean
    refine ⟨collapsed, hread.2 fun entry hentry => ?_, hcollapsed.recovers hwritable⟩
    obtain ⟨state, hresult, hoptions⟩ := hcollapsed.evaluated entry hentry
    have hname : entry.1 ∈ engine.document.names := hcollapsed.names ▸ List.mem_map_of_mem hentry
    exact hoptions ▸ hclean entry.1 hname state hresult

/-- A section with a bracketed key, and one that imports it and has a value that ends with a bracket
behind an empty line. -/
def sharing : Document :=
  ⟨.ofList [("base", .ofList [("[x]", "1")]),
    ("site", .ofList [("use base", ""), ("y", "2\n\n3]")])]⟩

/-- Brackets that do not meet on one line do no harm. -/
theorem collapse_rereads_iff_sharing :
    ∃ engine,
      Document.parse "[base]\n[x] = 1\n[site]\nuse base\ny:\n  2\n\n  3]\n" "source" =
        .ok sharing ∧
      ofDocument sharing .standard {} = .ok engine ∧
      (collapse engine).result = .ok "[base]\n[x]: 1\n\n[site]\n[x]: 1\ny: 2\n\n    3]\n" ∧
      ∃ reread, Document.parse "[base]\n[x]: 1\n\n[site]\n[x]: 1\ny: 2\n\n    3]\n" "written" =
        .ok reread ∧ Recovers engine reread := by
  have hsource : Document.parse "[base]\n[x] = 1\n[site]\nuse base\ny:\n  2\n\n  3]\n" "source" =
      .ok sharing := by rfl
  obtain ⟨engine, hengine, hwritten, hbase, hsite⟩ : ∃ engine,
      ofDocument sharing .standard {} = .ok engine ∧
      (collapse engine).result = .ok "[base]\n[x]: 1\n\n[site]\n[x]: 1\ny: 2\n\n    3]\n" ∧
      (evaluate "base" engine).result = .ok ⟨.ofList [("[x]", "1")], []⟩ ∧
      (evaluate "site" engine).result = .ok ⟨.ofList [("[x]", "1"), ("y", "2\n\n3]")], []⟩ :=
    ⟨_, rfl, by rfl, by rfl, by rfl⟩
  obtain ⟨hdocument, -⟩ := ofDocument_eq_ok hengine
  refine ⟨engine, hsource, hengine, hwritten, ?_⟩
  refine (collapse_rereads_iff (.start hengine) (hdocument ▸ hsource) hwritten "written").2 ?_
  intro name hname state hstate
  rw [hdocument] at hname
  rcases List.mem_pair.1 hname with rfl | rfl
  · cases hbase.symm.trans hstate
    decide
  · cases hsite.symm.trans hstate
    decide

/-- A key that starts with a bracket and has its value on the next line: both are written on one
line, which is a header. -/
theorem bracketed_not_recovered :
    ∃ document engine, Document.parse "[S]\n[a:\n    b]\n" "source" = .ok document ∧
      ofDocument document .standard {} = .ok engine ∧
      (evaluate "S" engine).result = .ok ⟨.ofList [("[a", "b]")], []⟩ ∧
      (collapse engine).result = .ok "[S]\n[a: b]\n" ∧
      Document.parse "[S]\n[a: b]\n" "written" = .ok ⟨.ofList [("S", ∅), ("a: b", ∅)]⟩ ∧
      ¬ ∃ reread, Document.parse "[S]\n[a: b]\n" "written" = .ok reread ∧
        Recovers engine reread := by
  have hsource : Document.parse "[S]\n[a:\n    b]\n" "source" =
      .ok ⟨.ofList [("S", .ofList [("[a", "b]")])]⟩ := by rfl
  have hread : Document.parse "[S]\n[a: b]\n" "written" =
      .ok ⟨.ofList [("S", ∅), ("a: b", ∅)]⟩ := by rfl
  refine ⟨_, _, hsource, rfl, by rfl, by rfl, hread, ?_⟩
  rintro ⟨reread, hparse, hrecovers⟩
  cases hread.symm.trans hparse
  have hnames : ["S", "a: b"] = ["S"] := hrecovers.names
  simp at hnames

end Engine

end IniCompose
