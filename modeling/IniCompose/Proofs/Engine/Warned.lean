import IniCompose.Proofs.Engine.Rendered

/-!
# Compact warnings of a run

A compact warning tells the severity and the text of a fault. It is one line for every fault of a
run, unless the text quotes a value of several lines or the name of an absent section that was asked
for with a line feed in it.
-/
namespace IniCompose

open Text

namespace Policy

variable {policy : Policy} {severity : Severity} {fault : Fault}

/-- The warning is one line: how severe the fault is, and then its text. -/
structure OneLine (policy : Policy) (severity : Severity) (fault : Fault) : Prop where
  text : policy.warning severity fault =
    "EXCEPTION SKIPPED: [" ++ severity.label ++ "] " ++ fault.message
  unbroken : Unbroken (policy.warning severity fault)

theorem warning_of_compact (hcompact : policy.compact = true) :
    policy.warning severity fault =
      "EXCEPTION SKIPPED: [" ++ severity.label ++ "] " ++ fault.message := by
  rw [warning, if_pos hcompact]

theorem oneLine_iff (hcompact : policy.compact = true) :
    policy.OneLine severity fault ↔ Unbroken fault.message := by
  have htext : policy.warning severity fault = _ := warning_of_compact hcompact
  have hopening : Unbroken ("EXCEPTION SKIPPED: [" ++ severity.label ++ "] ") := by
    cases severity <;> decide
  constructor
  · rintro ⟨-, hunbroken⟩
    rw [htext, unbroken_append] at hunbroken
    exact hunbroken.2
  · intro hmessage
    refine ⟨htext, ?_⟩
    rw [htext, unbroken_append]
    exact ⟨hopening, hmessage⟩

end Policy

namespace Engine

variable {engine : Engine} {journal : Journal}

/-- The journals of runs of the engine: the evaluation of a section, or that of every one. -/
inductive Journals (engine : Engine) : Journal → Prop
  | evaluate (name) : Journals engine (evaluate name engine).journal
  | evaluateAll : Journals engine (evaluateAll engine).journal

/-- What is told in a run is what the engine may tell. -/
theorem Journals.tells (h : engine.Journals journal) {plain : String → Prop}
    (hspeaks : engine.toSetup.Speaks plain) :
    ∀ event ∈ journal, engine.toSetup.Tells plain event := by
  cases h with
  | evaluate name =>
    cases hcache : engine.cache.get? name with
    | some state =>
      rw [evaluate_of_cached hcache]
      exact List.forall_mem_nil _
    | none =>
      rw [evaluate_of_uncached hcache]
      exact (Setup.grounded_evaluateWithin hspeaks _ name (Setup.room_of_inactive rfl)).events
  | evaluateAll =>
    exact (Setup.grounded_evaluateEach hspeaks engine.document.names
      (s := { cache := engine.cache }) rfl).events

/-- Over a loaded configuration, with handlers that make up no text with a line feed, every fault on
the record of a run is one there can be, and so is every fault that is warned about. A compact
warning about it is one line exactly if its text does not quote several lines. -/
theorem compact_warnings_one_line (hloaded : engine.document.Loaded)
    (hspeaks : engine.toSetup.Speaks Unbroken) (h : engine.Journals journal) :
    (∀ entry ∈ journal.engineTrace, entry.kind = .warning →
      ∃ severity fault, engine.toSetup.Arises Unbroken fault ∧
        entry = Policy.faultEntry severity (engine.policy.decision severity) fault entry.depth ∧
        ∀ policy : Policy, policy.compact = true →
          (policy.OneLine severity fault ↔ ¬ engine.toSetup.Quotes fault)) ∧
    ∀ text, .message .warn text ∈ journal →
      ∃ severity fault, engine.toSetup.Arises Unbroken fault ∧
        text = engine.policy.warning severity fault ∧
        (engine.policy.compact = true →
          (engine.policy.OneLine severity fault ↔ ¬ engine.toSetup.Quotes fault)) := by
  have htells := h.tells hspeaks
  have hline {severity : Severity} {fault : Fault}
      (harises : engine.toSetup.Arises Unbroken fault) (policy : Policy)
      (hcompact : policy.compact = true) :
      policy.OneLine severity fault ↔ ¬ engine.toSetup.Quotes fault :=
    (Policy.oneLine_iff hcompact).trans (Setup.unbroken_message_iff hloaded.normal harises)
  refine ⟨fun entry hentry hkind => ?_, fun text htext => ?_⟩
  · cases htells _ (Journal.mem_engineTrace.1 hentry) with
    | fault severity depth harises => exact ⟨severity, _, harises, rfl, hline harises⟩
    | _ => cases hkind
  · -- of all that may be told, only a warning has this verbosity
    generalize hevent : Event.message .warn text = event at htext
    cases htells event htext with
    | message _ hverbosity =>
      cases hevent
      exact absurd rfl hverbosity
    | warning severity harises =>
      cases hevent
      exact ⟨severity, _, harises, rfl, hline harises engine.policy⟩
    | _ => cases hevent

/-- A failing handler is warned about on one line. -/
theorem compact_warnings_one_line_troubled :
    Document.parse "[A]\nboom x: 1\nuse Ghost\nk: v\n" "source" = .ok troubled ∧
      (complaining troubled).toSetup.Speaks Unbroken ∧
      (complaining troubled).policy.compact = true ∧
      ∃ journal, (complaining troubled).Journals journal ∧
        ∃ text, .message .warn text ∈ journal ∧
          text = "EXCEPTION SKIPPED: [serious] Handler for option 'boom x' in section [A] " ++
            "failed (value: '1'): no" ∧
          ∃ severity fault, text = (complaining troubled).policy.warning severity fault ∧
            (complaining troubled).policy.OneLine severity fault ∧
            ¬ (complaining troubled).toSetup.Quotes fault := by
  have hsource : Document.parse "[A]\nboom x: 1\nuse Ghost\nk: v\n" "source" = .ok troubled := by
    rfl
  have hspeaks := speaks_complaining (.parse hsource)
  have hjournal := @Journals.evaluate (complaining troubled) "A"
  have hwarned : .message .warn
      ("EXCEPTION SKIPPED: [serious] Handler for option 'boom x' in section [A] " ++
        "failed (value: '1'): no") ∈ (evaluate "A" (complaining troubled)).journal := by
    decide +kernel
  obtain ⟨-, hwarnings⟩ := compact_warnings_one_line (.parse hsource) hspeaks hjournal
  obtain ⟨severity, fault, -, htext, hline⟩ := hwarnings _ hwarned
  have honeLine : (complaining troubled).policy.OneLine severity fault :=
    ⟨Policy.warning_of_compact rfl, htext ▸ by decide⟩
  exact ⟨hsource, hspeaks, rfl, _, hjournal, _, hwarned, rfl, severity, fault, htext, honeLine,
    (hline rfl).1 honeLine⟩

/-- An option of a failing handler, with a value of two lines. -/
def quoting : Document := ⟨.ofList [("A", .ofList [("boom x", "a\nb")])]⟩

/-- The warning quotes the value, though the handler fails with a single word. -/
theorem warning_broken_by_value :
    Document.parse "[A]\nboom x:\n    a\n    b\n" "source" = .ok quoting ∧
      (complaining quoting).toSetup.Speaks Unbroken ∧
      (complaining quoting).policy.compact = true ∧
      ∃ journal, (complaining quoting).Journals journal ∧
        ∃ text, .message .warn text ∈ journal ∧
          text = (complaining quoting).policy.warning .serious
            (.handlerExecution "A" "boom x" "a\nb" "no" []) ∧
          text = "EXCEPTION SKIPPED: [serious] Handler for option 'boom x' in section [A] " ++
            "failed (value: 'a\nb'): no" ∧
          ¬ Unbroken text := by
  have hsource : Document.parse "[A]\nboom x:\n    a\n    b\n" "source" = .ok quoting := by rfl
  have hjournal := @Journals.evaluate (complaining quoting) "A"
  exact ⟨hsource, speaks_complaining (.parse hsource), rfl, _, hjournal, _, by decide +kernel, rfl,
    rfl, by decide⟩

end Engine

end IniCompose
