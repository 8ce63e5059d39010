import IniCompose.Proofs.Text.Json
import IniCompose.Proofs.Text.Lines
import IniCompose.Trace

/-!
# Traces as lines of JSON

Every entry of a trace is written as one line, whatever its texts hold, and the lines tell the
trace.
-/
namespace IniCompose.Trace

open Text

theorem Kind.label_injective : Function.Injective Kind.label := by
  intro kind other h
  cases kind <;> cases other <;> first | rfl | simp [label] at h

namespace Entry

theorem toList_json (entry : Entry) :
    entry.json.toList =
      "\x7b\"kind\":".toList ++ ((jsonQuoted entry.kind.label).toList ++
        (",\"name\":".toList ++ ((jsonQuoted entry.name).toList ++
          (",\"depth\":".toList ++ (entry.depth.repr.toList ++
            (",\"metadata\":".toList ++ ((jsonTexts entry.details.entries).toList ++
              ['\x7d']))))))) := by
  have hkind : jsonQuoted "kind" = "\"kind\"" := rfl
  have hname : jsonQuoted "name" = "\"name\"" := rfl
  have hdepth : jsonQuoted "depth" = "\"depth\"" := rfl
  have hdetails : jsonQuoted "metadata" = "\"metadata\"" := rfl
  simp [json, jsonObject, hkind, hname, hdepth, hdetails]

theorem uncontrolled_json (entry : Entry) : Uncontrolled entry.json.toList := by
  rw [toList_json]
  simp only [uncontrolled_append]
  exact ⟨by decide, uncontrolled_jsonQuoted _, by decide, uncontrolled_jsonQuoted _, by decide,
    uncontrolled_repr _, by decide, uncontrolled_jsonTexts _, by decide⟩

/-- The pieces of an entry are told apart one after the other. The number ends with the comma that
opens the next piece. -/
theorem selfDelimiting_json : SelfDelimiting fun entry : Entry => entry.json.toList := by
  intro entry other r s heq
  have hnumber (n : Nat) (rest : List Char) :
      n.repr.toList ++ (",\"metadata\":".toList ++ rest) =
        n.repr.toList ++ [','] ++ ("\"metadata\":".toList ++ rest) := by
    simp
  simp only [toList_json, List.append_assoc] at heq
  obtain ⟨hkind, heq⟩ := selfDelimiting_jsonQuoted (List.append_cancel_left heq)
  obtain ⟨hname, heq⟩ := selfDelimiting_jsonQuoted (List.append_cancel_left heq)
  have heq := List.append_cancel_left heq
  rw [hnumber, hnumber] at heq
  obtain ⟨hdepth, heq⟩ := selfDelimiting_repr (by decide) heq
  obtain ⟨hdetails, heq⟩ := selfDelimiting_jsonTexts (List.append_cancel_left heq)
  refine ⟨?_, List.append_cancel_left heq⟩
  have hkind := Kind.label_injective hkind
  have hdetails := OrderedMap.ext_entries hdetails
  cases entry
  cases other
  subst hkind hname hdepth hdetails
  rfl

theorem json_start (entry : Entry) : ∃ c rest, entry.json.toList = c :: rest ∧ c ≠ '\n' :=
  ⟨'\x7b', _, by rw [toList_json]; rfl, by decide⟩

end Entry

theorem toList_jsonLines (trace : Trace) :
    trace.jsonLines.toList = unlines (trace.map fun entry => entry.json.toList) := by
  simp [jsonLines, unlines, String.toList_join, List.flatMap_map]

/-- Distinct traces have distinct texts. An entry tells where it ends, so the texts are told apart
entry by entry. -/
theorem jsonLines_injective : Function.Injective jsonLines := by
  have hline := Entry.selfDelimiting_json.append_text ['\n']
  have hstart (entry : Entry) :
      ∃ c rest, entry.json.toList ++ ['\n'] = c :: rest ∧ c ≠ '\n' := by
    obtain ⟨c, rest, hjson, hne⟩ := entry.json_start
    exact ⟨c, rest ++ ['\n'], by rw [hjson, List.cons_append], hne⟩
  intro trace other h
  have hchars : trace.jsonLines.toList = other.jsonLines.toList := congrArg String.toList h
  rw [toList_jsonLines, toList_jsonLines, unlines, unlines, List.flatMap_map,
    List.flatMap_map] at hchars
  have hstop (s : List Char) :
      trace.flatMap (fun entry => entry.json.toList ++ ['\n']) ++ ['\n'] ++ s =
        other.flatMap (fun entry => entry.json.toList ++ ['\n']) ++ ['\n'] ++ s := by
    rw [hchars]
  exact (hline.flatMap hstart (hstop [])).1

/-- The text of a trace is one line of JSON for each entry, each with a line feed at its end. The
lines hold no control character, are what is read line by line, and tell the trace. -/
theorem jsonLines_lossless :
    (∀ trace : Trace,
      trace.jsonLines.toList = unlines (trace.map fun entry => entry.json.toList) ∧
        lines trace.jsonLines.toList = trace.map (fun entry => entry.json.toList) ∧
        ∀ entry ∈ trace, Uncontrolled entry.json.toList) ∧
      Function.Injective jsonLines := by
  refine ⟨fun trace => ⟨toList_jsonLines trace, ?_, fun entry _ => entry.uncontrolled_json⟩,
    jsonLines_injective⟩
  rw [toList_jsonLines]
  exact lines_unlines (List.forall_mem_map.2 fun entry _ => entry.uncontrolled_json.plain)

/-- A value of two lines, and a key that goes on like the text of an entry. -/
theorem jsonLines_lossless_quoting :
    let entry : Entry := ⟨.keyMatch, "a\",\"depth\":7", 1, .ofList [("value", "b\nc")]⟩
    entry ∈ [entry] ∧
      lines (jsonLines [entry]).toList =
        ["\x7b\"kind\":\"key-match\",\"name\":\"a\\\",\\\"depth\\\":7\",\"depth\":1,".toList ++
          "\"metadata\":\x7b\"value\":\"b\\nc\"\x7d\x7d".toList] ∧
      Uncontrolled entry.json.toList := by
  intro entry
  have hmem : entry ∈ [entry] := List.mem_singleton_self entry
  obtain ⟨-, hlines, hcontrol⟩ := jsonLines_lossless.1 [entry]
  exact ⟨hmem, hlines.trans (by decide +kernel), hcontrol entry hmem⟩

end IniCompose.Trace
