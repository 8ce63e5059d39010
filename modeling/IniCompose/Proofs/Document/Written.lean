import IniCompose.Document.Format
import IniCompose.Proofs.Document.NormalForm

/-!
# The lines of a written document

A written document is read line by line: a header for each section, then for each option the line of
its key and the further lines of its value. Of these only the line of a key can be misread, namely
as a header.
-/
namespace IniCompose

open Text

namespace Document

/-! ## Texts -/

/-- Sections one after the other, each after the first one behind an empty line. -/
def sectionsText (separator : String) : List (String × Options) → String
  | [] => ""
  | entry :: rest => separator ++ sectionText entry.1 entry.2 ++ sectionsText "\n" rest

/-- The text of a document. -/
def text (document : Document) : String := sectionsText "" document.sections.entries

/-! ## Lines -/

def headerChars (name : String) : List Char := '[' :: (name.toList ++ [']'])

/-- The line of a key with the first line of its value. -/
def firstChars (key : String) (line : List Char) : List Char :=
  if line.isEmpty then key.toList ++ [':'] else key.toList ++ ':' :: ' ' :: line

def furtherChars (line : List Char) : List Char :=
  if line.isEmpty then [] else continuationIndent.toList ++ line

def optionLines (option : String × String) : List (List Char) :=
  match option.2.toList.splitOn '\n' with
  | [] => [firstChars option.1 []]
  | first :: rest => firstChars option.1 first :: rest.map furtherChars

def sectionLines (entry : String × Options) : List (List Char) :=
  headerChars entry.1 :: entry.2.entries.flatMap optionLines

/-- The lines of sections, after the lines of a separator. -/
def sectionsLines (separator : List (List Char)) : List (String × Options) → List (List Char)
  | [] => []
  | entry :: rest => separator ++ sectionLines entry ++ sectionsLines [[]] rest

theorem toList_firstLine (key : String) (line : List Char) :
    (firstLine key line).toList = firstChars key line ++ ['\n'] := by
  unfold firstLine firstChars
  split <;> simp

theorem toList_continuationLine (line : List Char) :
    (continuationLine line).toList = furtherChars line ++ ['\n'] := by
  unfold continuationLine furtherChars
  split <;> simp

theorem toList_join_map {α : Type} (f : α → String) (g : α → List (List Char))
    (h : ∀ a, (f a).toList = unlines (g a)) (as : List α) :
    (String.join (as.map f)).toList = unlines (as.flatMap g) := by
  induction as with
  | nil => simp
  | cons a rest ih => simp [h, ih]

theorem toList_optionText (option : String × String) :
    (optionText option.1 option.2).toList = unlines (optionLines option) := by
  obtain ⟨first, rest, hsplit⟩ :=
    List.exists_cons_of_ne_nil (List.splitOn_ne_nil '\n' option.2.toList)
  have hrest := toList_join_map continuationLine (fun line => [furtherChars line])
    (by simp [toList_continuationLine]) rest
  simp only [optionText, optionLines, hsplit]
  rw [String.toList_append, toList_firstLine, hrest, unlines_cons, List.map_eq_flatMap]
  simp

theorem toList_sectionText (entry : String × Options) :
    (sectionText entry.1 entry.2).toList = unlines (sectionLines entry) := by
  unfold sectionText sectionLines
  rw [String.toList_append, toList_join_map _ _ toList_optionText, unlines_cons]
  simp [headerLine, headerChars]

theorem toList_sectionsText (separator : String) (separatorLines : List (List Char))
    (h : separator.toList = unlines separatorLines) (entries : List (String × Options)) :
    (sectionsText separator entries).toList = unlines (sectionsLines separatorLines entries) := by
  induction entries generalizing separator separatorLines with
  | nil => rfl
  | cons entry rest ih =>
    have hrest := ih "\n" [[]] rfl
    simp [sectionsText, sectionsLines, h, toList_sectionText, hrest]

end Document

/-! ## What can be written -/

/-- An option as it stands in an evaluated section: its key is not empty and needs no suffix. -/
structure NormalOption (option : String × String) : Prop where
  key : NormalKey option.1
  ne_empty : option.1 ≠ ""
  value : NormalValue option.2

/-- The sections of a document, each with options that can be written. -/
def Document.Writable (document : Document) : Prop :=
  ∀ entry ∈ document.sections.entries,
    NormalName entry.1 ∧ ∀ option ∈ entry.2.entries, NormalOption option

/-- The line of the key is a header: the key starts with an opening bracket, and the first line of
the value ends with a closing one. -/
def Misread (option : String × String) : Prop :=
  option.1.toList.head? = some '[' ∧
    (option.2.toList.takeWhile (· ≠ '\n')).getLast? = some ']'

instance (option : String × String) : Decidable (Misread option) :=
  inferInstanceAs (Decidable (_ ∧ _))

/-- The first line and the further ones of a normal value. -/
theorem NormalValue.exists_lines {value : String} (h : NormalValue value) :
    ∃ first rest, value.toList.splitOn '\n' = first :: rest ∧
      value = .ofList (joinLines first rest) ∧ value.toList.takeWhile (· ≠ '\n') = first ∧
      Trimmed first ∧ '\n' ∉ first ∧ (∀ line ∈ rest, line = [] ∨ Line.Normal line) ∧
      rest.getLast? ≠ some [] ∧ (first = [] → rest = []) := by
  rcases h with rfl | ⟨first, rest, hlines, rfl⟩
  · exact ⟨[], [], rfl, rfl, rfl, rfl, by simp, by simp, by simp, by simp⟩
  · have hrest : ∀ line ∈ rest, '\n' ∉ line := by
      intro line hline
      rcases hlines.further line hline with rfl | hnormal
      · simp
      · exact hnormal.newline
    refine ⟨first, rest, ?_, rfl, ?_, hlines.trimmed, hlines.newline, hlines.further, hlines.last,
      fun h => absurd h hlines.ne_nil⟩
    · rw [String.toList_ofList, splitOn_joinLines hlines.newline hrest]
    · have hkept : ∀ c ∈ first, decide (c ≠ '\n') = true := by
        intro c hc
        exact decide_eq_true fun e => hlines.newline (e ▸ hc)
      rw [String.toList_ofList, joinLines, List.takeWhile_append_of_pos hkept]
      cases rest with
      | nil => simp
      | cons line rest => simp

/-! ## How written lines are read -/

namespace Document

section

variable {name key : String} {line : List Char}

theorem plain_of_trimmed (htrimmed : Trimmed line) (hnewline : '\n' ∉ line) : Plain line := by
  refine ⟨hnewline, fun hreturn => ?_⟩
  have := (trimmed_iff_bounded.1 htrimmed).2 '\r' hreturn
  simp at this

theorem trimmed_headerChars (name : String) : Trimmed (headerChars name) := by
  have hopen : Trimmed ['['] := by decide
  have hclose : Trimmed [']'] := by decide
  exact hopen.append hclose (by simp) (by simp) name.toList

theorem plain_headerChars (h : NormalName name) : Plain (headerChars name) := by
  refine plain_of_trimmed (trimmed_headerChars name) ?_
  simp [headerChars, h.newline]

theorem normal_firstChars (hkey : NormalKey key) (hne : key ≠ "") (htrimmed : Trimmed line)
    (hnewline : '\n' ∉ line) : Line.Normal (firstChars key line) := by
  have hchars : key.toList ≠ [] := by simpa using hne
  obtain ⟨c, rest, hcons⟩ := List.exists_cons_of_ne_nil hchars
  unfold firstChars
  split
  · have htrimmed' : Trimmed (key.toList ++ [] ++ [':']) :=
      hkey.trimmed.append (by decide) hchars (by simp) []
    refine ⟨by simp, by simpa using htrimmed', ?_, by simp [hkey.newline]⟩
    intro d hd
    exact hkey.uncommented d (by simpa [hcons] using hd)
  · next hline =>
    have hfilled : line ≠ [] := by simpa using hline
    have htrimmed' : Trimmed (key.toList ++ [':', ' '] ++ line) :=
      hkey.trimmed.append htrimmed hchars hfilled [':', ' ']
    refine ⟨by simp, by simpa using htrimmed', ?_, by simp [hkey.newline, hnewline]⟩
    intro d hd
    exact hkey.uncommented d (by simpa [hcons] using hd)

theorem plain_furtherChars (h : line = [] ∨ Line.Normal line) : Plain (furtherChars line) := by
  rcases h with rfl | hline
  · exact ⟨by simp [furtherChars], by simp [furtherChars]⟩
  · have hplain := plain_of_trimmed hline.trimmed hline.newline
    have hchars : furtherChars line = continuationIndent.toList ++ line := by
      simp [furtherChars, hline.ne_nil]
    rw [hchars]
    refine ⟨by simp [continuationIndent, hline.newline], fun hreturn => hplain.return_ ?_⟩
    rw [List.getLast?_append, List.getLast?_eq_some_getLast hline.ne_nil] at hreturn
    rw [List.getLast?_eq_some_getLast hline.ne_nil]
    exact hreturn

theorem plain_of_mem_optionLines {option : String × String} (h : NormalOption option)
    (hline : line ∈ optionLines option) : Plain line := by
  obtain ⟨first, rest, hsplit, -, -, htrimmed, hnewline, hfurther, -⟩ := h.value.exists_lines
  simp only [optionLines, hsplit, List.mem_cons, List.mem_map] at hline
  rcases hline with rfl | ⟨further, hmem, rfl⟩
  · have hnormal := normal_firstChars h.key h.ne_empty htrimmed hnewline
    exact plain_of_trimmed hnormal.trimmed hnormal.newline
  · exact plain_furtherChars (hfurther further hmem)

theorem plain_of_mem_sectionsLines {entries : List (String × Options)}
    {separator : List (List Char)} (hseparator : ∀ line ∈ separator, line = [])
    (h : ∀ entry ∈ entries, NormalName entry.1 ∧ ∀ option ∈ entry.2.entries, NormalOption option)
    (hline : line ∈ sectionsLines separator entries) : Plain line := by
  induction entries generalizing separator with
  | nil => cases hline
  | cons entry rest ih =>
    obtain ⟨hname, hoptions⟩ := h entry (by simp)
    simp only [sectionsLines, sectionLines, List.mem_append, List.mem_cons,
      List.mem_flatMap] at hline
    rcases hline with (hline | rfl | ⟨option, hoption, hline⟩) | hline
    · rw [hseparator line hline]
      exact ⟨by simp, by simp⟩
    · exact plain_headerChars hname
    · exact plain_of_mem_optionLines (hoptions option hoption) hline
    · exact ih (by simp) (fun other hother => h other (by simp [hother])) hline

/-- A document that can be written is read line by line. -/
theorem lines_text {document : Document} (h : document.Writable) :
    lines document.text.toList = sectionsLines [] document.sections.entries := by
  rw [text, toList_sectionsText "" [] rfl, lines_unlines]
  exact fun line hline => plain_of_mem_sectionsLines (by simp) h hline

/-! ### Each line by itself -/

theorem ofChars_of_normal (h : Line.Normal line) : Line.ofChars line = .content false line := by
  obtain ⟨c, rest, rfl⟩ := List.exists_cons_of_ne_nil h.ne_nil
  have hblank := (trimmed_iff_bounded.1 h.trimmed).1 c (by simp)
  have hcomment := h.uncommented c (by simp)
  exact Line.ofChars_eq_content_iff.2
    ⟨⟨c, by simp [hblank], hcomment⟩, by simp [hblank], Eq.symm h.trimmed⟩

theorem ofChars_furtherChars (h : Line.Normal line) :
    Line.ofChars (furtherChars line) = .content true line := by
  have hchars : furtherChars line = continuationIndent.toList ++ line := by
    simp [furtherChars, h.ne_nil]
  have hindent : ∀ c ∈ continuationIndent.toList, isBlank c = true := by
    intro c hc
    obtain rfl : c = ' ' := by simpa [continuationIndent] using hc
    exact isBlank_space
  have htrim : trim (continuationIndent.toList ++ line) = line :=
    trim_append_of_blank hindent h.trimmed
  obtain ⟨c, rest, rfl⟩ := List.exists_cons_of_ne_nil h.ne_nil
  have hcomment := h.uncommented c (by simp)
  rw [hchars, Line.ofChars_eq_content_iff, ← head?_trim, htrim]
  exact ⟨⟨c, rfl, hcomment⟩, by simp [continuationIndent], rfl⟩

theorem ofChars_headerChars (name : String) :
    Line.ofChars (headerChars name) = .content false (headerChars name) := by
  have htrim : trim (headerChars name) = headerChars name := trimmed_headerChars name
  rw [Line.ofChars_eq_content_iff, ← head?_trim, htrim]
  exact ⟨⟨'[', rfl, by decide⟩, by simp [headerChars]; decide, rfl⟩

theorem headerName?_headerChars (h : NormalName name) :
    Line.headerName? (headerChars name) = some name.toList :=
  Line.headerName?_eq_some_iff.2 ⟨name.toList, rfl, Eq.symm h.trimmed⟩

theorem firstChars_eq (key : String) (line : List Char) :
    ∃ later, firstChars key line = key.toList ++ ':' :: later ∧ trim later = trim line ∧
      ((':' :: later).getLast? = some ']' ↔ line.getLast? = some ']') := by
  unfold firstChars
  split
  · next hempty =>
    obtain rfl : line = [] := by simpa using hempty
    exact ⟨[], rfl, rfl, by simp⟩
  · next hfilled =>
    obtain ⟨c, rest, rfl⟩ := List.exists_cons_of_ne_nil (show line ≠ [] by simpa using hfilled)
    refine ⟨' ' :: c :: rest, rfl, ?_, by simp⟩
    rw [trim, trimStart_cons_of_blank isBlank_space, trim]

/-- The line of a key is taken for a header exactly if it starts and ends with brackets. -/
theorem headerName?_firstChars (hne : key ≠ "") (line : List Char) :
    (Line.headerName? (firstChars key line)).isSome ↔
      key.toList.head? = some '[' ∧ line.getLast? = some ']' := by
  obtain ⟨c, rest, hcons⟩ := List.exists_cons_of_ne_nil (show key.toList ≠ [] by simpa using hne)
  obtain ⟨later, hchars, -, hlast⟩ := firstChars_eq key line
  have hend : (rest ++ ':' :: later).getLast? = (':' :: later).getLast? := by
    rw [List.getLast?_append]
    simp [List.getLast?_cons]
  rw [hchars, hcons, ← hlast, ← hend]
  by_cases hc : c = '['
  · subst hc
    by_cases hbracket : (rest ++ ':' :: later).getLast? = some ']' <;>
      simp [Line.headerName?, hbracket]
  · simp [Line.headerName?, hc]

/-- The line of a key gives the key and the first line of the value. -/
theorem keyValue_firstChars (hkey : NormalKey key) (htrimmed : Trimmed line) :
    Line.keyValue (firstChars key line) = (key.toList, line) := by
  obtain ⟨later, hchars, hlater, -⟩ := firstChars_eq key line
  refine Line.keyValue_eq_iff.2 (.inl ⟨key.toList, ':', later, hchars, rfl, hkey.delimiter, ?_, ?_⟩)
  · exact Eq.symm hkey.trimmed
  · exact (hlater.trans htrimmed).symm

end

end Document

end IniCompose
