import IniCompose.Proofs.Text.Lines
import IniCompose.Trace

/-!
# Rendered traces

The text of a trace is the lines of its entries one below the other. A text that an entry tells is
written as it is, so there is one line for each entry exactly if no line feed breaks one of these
texts; every line feed in them is a line too many.
-/
namespace IniCompose

namespace Text

/-- No line feed breaks the text. -/
def Unbroken (text : String) : Prop := '\n' ∉ text.toList

instance (text : String) : Decidable (Unbroken text) :=
  inferInstanceAs (Decidable (¬ _))

@[simp] theorem unbroken_append {first second : String} :
    Unbroken (first ++ second) ↔ Unbroken first ∧ Unbroken second := by
  simp [Unbroken]

theorem length_le_count_unlines (lines : List (List Char)) :
    lines.length ≤ (unlines lines).count '\n' := by
  induction lines with
  | nil => exact Nat.le_refl 0
  | cons line rest ih =>
    rw [unlines_cons, List.count_append, List.count_cons_self, List.length_cons]
    omega

/-- A line feed within a line is one more than there are lines. -/
theorem count_unlines_eq_length_iff {lines : List (List Char)} :
    (unlines lines).count '\n' = lines.length ↔ ∀ line ∈ lines, '\n' ∉ line := by
  induction lines with
  | nil => simp
  | cons line rest ih =>
    have hrest := length_le_count_unlines rest
    rw [unlines_cons, List.count_append, List.count_cons_self, List.length_cons,
      List.forall_mem_cons, ← ih, ← List.count_eq_zero]
    omega

/-- Nothing stands behind the line feed of the last line. -/
theorem splitOn_unlines {lines : List (List Char)} (h : ∀ line ∈ lines, '\n' ∉ line) :
    (unlines lines).splitOn '\n' = lines ++ [[]] := by
  induction lines with
  | nil => rfl
  | cons line rest ih =>
    obtain ⟨hline, hrest⟩ := List.forall_mem_cons.1 h
    rw [unlines_cons, List.splitOn_append_cons_self_of_not_mem hline, ih hrest, List.cons_append]

end Text

namespace Trace

open Text

namespace Entry

/-- The line of an entry: the tag in 15 columns and a space, two spaces for each active section
beyond the first, the name and the details. -/
def line (entry : Entry) : List Char :=
  entry.kind.tag.toList.rightpad 15 ' ' ++ ' ' :: List.replicate (2 * (entry.depth - 1)) ' ' ++
    entry.name.toList ++
      entry.details.entries.flatMap fun detail =>
        ' ' :: detail.1.toList ++ '=' :: detail.2.toList

/-- No text that the entry tells is broken. -/
structure Unbroken (entry : Entry) : Prop where
  name : Text.Unbroken entry.name
  details : ∀ detail ∈ entry.details.entries, Text.Unbroken detail.1 ∧ Text.Unbroken detail.2

theorem unbroken_iff {entry : Entry} :
    entry.Unbroken ↔ Text.Unbroken entry.name ∧
      ∀ detail ∈ entry.details.entries, Text.Unbroken detail.1 ∧ Text.Unbroken detail.2 :=
  ⟨fun h => ⟨h.name, h.details⟩, fun h => ⟨h.1, h.2⟩⟩

instance : DecidablePred Unbroken := fun _ => decidable_of_iff' _ unbroken_iff

theorem toList_render (entry : Entry) : entry.render.toList = entry.line ++ ['\n'] := by
  simp [render, line, tagWidth, String.toList_join, List.flatMap_map]

theorem unbroken_tag (kind : Kind) : Text.Unbroken kind.tag := by
  cases kind <;> decide

theorem newline_notMem_line_iff {entry : Entry} : '\n' ∉ entry.line ↔ entry.Unbroken := by
  have htag : '\n' ∉ entry.kind.tag.toList := unbroken_tag entry.kind
  rw [unbroken_iff]
  simp [line, htag, Text.Unbroken]

end Entry

theorem toList_render (trace : Trace) :
    trace.render.toList = unlines (trace.map Entry.line) := by
  simp [render, unlines, String.toList_join, List.flatMap_map, Entry.toList_render]

/-- The text is as many lines as there are entries, each with a line feed at its end, and these are
the lines of the entries in order. -/
structure LinePerEntry (trace : Trace) : Prop where
  count : trace.render.toList.count '\n' = trace.length
  lines : trace.render.toList.splitOn '\n' = trace.map Entry.line ++ [[]]

theorem linePerEntry_iff {trace : Trace} :
    trace.LinePerEntry ↔ ∀ entry ∈ trace, entry.Unbroken := by
  have hcount : trace.render.toList.count '\n' = trace.length ↔
      ∀ entry ∈ trace, entry.Unbroken := by
    rw [toList_render, ← List.length_map Entry.line, count_unlines_eq_length_iff,
      List.forall_mem_map]
    exact forall₂_congr fun entry _ => Entry.newline_notMem_line_iff
  refine ⟨fun h => hcount.1 h.count, fun h => ⟨hcount.2 h, ?_⟩⟩
  rw [toList_render]
  exact splitOn_unlines (List.forall_mem_map.2 fun entry hentry =>
    Entry.newline_notMem_line_iff.2 (h entry hentry))

end Trace

end IniCompose
