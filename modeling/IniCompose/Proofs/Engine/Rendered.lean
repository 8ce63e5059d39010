import IniCompose.Proofs.Engine.Recorded
import IniCompose.Proofs.Evaluation.Entries
import IniCompose.Proofs.Evaluation.LineFeeds

/-!
# The rendered trace of a run

The rendered trace has a line for each entry exactly if no entry tells a text of several lines. Over
a configuration that has been loaded, such an entry assigns a value of several lines, is about a
fault whose text quotes such a value, or is about an absent section that was asked for by a name
with a line feed in it. What a value has behind a line feed can pass for the line of an entry.
-/
namespace IniCompose

open Text Trace

namespace Engine

variable {engine : Engine} {result : Except Fault Unit} {trace : Trace}

/-- In a run whose handlers record nothing, every entry is one that the engine may tell. -/
theorem Ran.tells (h : engine.Ran result trace) {plain : String → Prop}
    (hsilent : engine.registry.Only Request.Unrecorded) (hspeaks : engine.toSetup.Speaks plain) :
    ∀ entry ∈ trace, engine.toSetup.Tells plain (.entry entry) := by
  obtain ⟨names, -, rfl⟩ := h.exists_evaluateEach
  have hreports := Setup.reports_evaluateEach hsilent names { cache := engine.cache }
  have hgrounded := Setup.grounded_evaluateEach hspeaks names (s := { cache := engine.cache }) rfl
  intro entry hentry
  rcases Journal.mem_trace.1 hentry with hengine | hcustom
  · exact hgrounded.events _ hengine
  · cases hreports _ hcustom with
    | custom _ hallowed => exact absurd hallowed id

/-- In every run, the rendered trace is the lines of its entries. It has a line for each entry
exactly if no entry tells a text with a line feed; over a loaded configuration, with handlers that
record nothing and make up no such text, exactly if nothing is told that spans several lines. -/
theorem rendered_line_per_entry (h : engine.Ran result trace) :
    trace.render.toList = unlines (trace.map Entry.line) ∧
    (trace.LinePerEntry ↔ ∀ entry ∈ trace, entry.Unbroken) ∧
    (engine.document.Loaded → engine.registry.Only Request.Unrecorded →
      engine.toSetup.Speaks Unbroken →
        (trace.LinePerEntry ↔ ∀ entry ∈ trace, ¬ engine.toSetup.Breaks entry)) := by
  refine ⟨toList_render trace, linePerEntry_iff, fun hloaded hsilent hspeaks => ?_⟩
  rw [linePerEntry_iff]
  exact forall₂_congr fun entry hentry =>
    Setup.unbroken_entry_iff hloaded.normal (h.tells hsilent hspeaks entry hentry)

/-- A new engine that warns about most faults, and whose operation `boom` always fails. -/
def complaining (document : Document) : Engine where
  document := document
  registry := Registry.standard.register "boom" fun _ => .fail (.text "no")
  settings := { level := 2 }
  policy := { level := ⟨2, by decide⟩ }
  policy_eq := rfl

theorem only_complaining (document : Document) :
    (complaining document).registry.Only Request.Unrecorded :=
  Registry.only_register_standard (by decide) unrecorded_standard fun _ => trivial

theorem speaks_complaining {document : Document} (hloaded : document.Loaded) :
    (complaining document).toSetup.Speaks Unbroken := by
  intro handler hheld site hsite
  rcases Registry.holds_register_standard (by decide) hheld with rfl | rfl
  · exact Setup.speaks_importSection hloaded.normal hsite
  · exact ⟨by simp [HandlerError.fault?], fun _ => by decide⟩

/-- A failing handler, an absent section and an assignment. -/
def troubled : Document :=
  ⟨.ofList [("A", .ofList [("boom x", "1"), ("use Ghost", ""), ("k", "v")])]⟩

/-- The faults are told, and there is a line for every entry. -/
theorem rendered_line_per_entry_troubled :
    Document.parse "[A]\nboom x: 1\nuse Ghost\nk: v\n" "source" = .ok troubled ∧
      (complaining troubled).registry.Only Request.Unrecorded ∧
      (complaining troubled).toSetup.Speaks Unbroken ∧
      ∃ trace, (complaining troubled).Ran (.ok ()) trace ∧ trace.length = 11 ∧
        trace.LinePerEntry ∧ ∀ entry ∈ trace, ¬ (complaining troubled).toSetup.Breaks entry := by
  have hsource : Document.parse "[A]\nboom x: 1\nuse Ghost\nk: v\n" "source" = .ok troubled := by
    rfl
  have hsilent := only_complaining troubled
  have hspeaks := speaks_complaining (.parse hsource)
  have hran : Ran (complaining troubled) (.ok ()) _ := @Ran.evaluate _ "A" rfl
  obtain ⟨-, hlines, hbreaks⟩ := rendered_line_per_entry hran
  have hevery := hlines.2 (by decide +kernel)
  exact ⟨hsource, hsilent, hspeaks, _, hran, by decide +kernel, hevery,
    (hbreaks (.parse hsource) hsilent hspeaks).1 hevery⟩

/-- A value whose second line looks like the line of an entry. -/
def forging : Document :=
  ⟨.ofList [("A", .ofList [("list", "first\nKEY_MATCH       forged value=x")])]⟩

/-- The second line of the value is rendered as the line of an entry that there is not. -/
theorem value_rendered_as_entry :
    Document.parse "[A]\nlist:\n    first\n    KEY_MATCH       forged value=x\n" "source" =
        .ok forging ∧
      (complaining forging).registry.Only Request.Unrecorded ∧
      ∃ trace, (complaining forging).Ran (.ok ()) trace ∧ trace.length = 3 ∧
        trace.render = "SECTION_ENTER   A\nKEY_MATCH       list value=first\n" ++
          "KEY_MATCH       forged value=x\nSECTION_EXIT    A keys=1\n" ∧
        ¬ trace.LinePerEntry :=
  ⟨by rfl, only_complaining forging, _, @Ran.evaluate _ "A" rfl, by decide +kernel,
    by decide +kernel, fun hlines => absurd hlines.count (by decide +kernel)⟩

end Engine

end IniCompose
