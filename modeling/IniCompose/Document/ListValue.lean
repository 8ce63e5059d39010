import IniCompose.Text.Basic

/-!
# Values that are lists

A value read as a list has one entry a line. Text from the first `#` of a line on is a comment, and
lines that say nothing else give no entry.
-/
namespace IniCompose

namespace ListValue

def dropComment (line : List Char) : List Char :=
  match Text.cutFirst? (· = '#') line with
  | some (before, _) => before
  | none => line

/-- The entries of a text, as lists of characters. -/
def entriesOf (text : List Char) : List (List Char) :=
  ((Text.lines text).map fun line => Text.trim (dropComment line)).filter (!·.isEmpty)

end ListValue

def listEntries (value : String) : List String :=
  (ListValue.entriesOf value.toList).map .ofList

/-! ## One line -/

namespace ListValue

open Text

/-- The entry that a line gives. -/
def entryOf? (line : List Char) : Option (List Char) :=
  if trim (dropComment line) = [] then none else some (trim (dropComment line))

theorem dropComment_of_notMem {line : List Char} (h : '#' ∉ line) : dropComment line = line := by
  have hcut : cutFirst? (· = '#') line = none := cutFirst?_eq_none_iff.2 (by grind)
  simp only [dropComment, hcut]

theorem dropComment_append {content : List Char} (h : '#' ∉ content) (comment : List Char) :
    dropComment (content ++ '#' :: comment) = content := by
  have hcut : cutFirst? (· = '#') (content ++ '#' :: comment) = some (content, comment) :=
    cutFirst?_eq_some_iff.2 ⟨'#', rfl, rfl, by grind⟩
  simp only [dropComment, hcut]

/-- A line is what stands before its comment, or that with the comment. -/
theorem exists_comment (line : List Char) :
    '#' ∉ dropComment line ∧
      (line = dropComment line ∨ ∃ comment, line = dropComment line ++ '#' :: comment) := by
  by_cases hhash : '#' ∈ line
  · obtain ⟨content, comment, rfl, hcontent⟩ := List.eq_append_cons_of_mem hhash
    rw [dropComment_append hcontent]
    exact ⟨hcontent, .inr ⟨comment, rfl⟩⟩
  · rw [dropComment_of_notMem hhash]
    exact ⟨hhash, .inl rfl⟩

/-- A return at the end of a line is blank, or part of a comment. -/
theorem trim_dropComment_dropReturn (line : List Char) :
    trim (dropComment (dropReturn line)) = trim (dropComment line) := by
  unfold dropReturn
  split
  · next hlast =>
    obtain ⟨start, rfl⟩ := List.getLast?_eq_some_iff.1 hlast
    rw [List.dropLast_concat]
    by_cases hhash : '#' ∈ start
    · obtain ⟨content, comment, rfl, hcontent⟩ := List.eq_append_cons_of_mem hhash
      rw [List.append_assoc, List.cons_append, dropComment_append hcontent,
        dropComment_append hcontent]
    · have hline : '#' ∉ start ++ ['\r'] := by grind
      rw [dropComment_of_notMem hhash, dropComment_of_notMem hline,
        trim_concat_of_blank isBlank_return]
  · rfl

theorem entryOf?_dropReturn (line : List Char) : entryOf? (dropReturn line) = entryOf? line := by
  rw [entryOf?, entryOf?, trim_dropComment_dropReturn]

end ListValue

end IniCompose
