import IniCompose.Proofs.Document.RoundTrip

/-!
# What a misread option costs

A line that is read adds at most one line to the values of a document, and a header adds none. A
written document has one line for each line of its values, apart from headers and separators; so if
the line of a key is taken for a header, a line of the values is missing in what is read back, and
nothing that follows can make up for it.
-/
namespace IniCompose.Document

open Text

/-! ## The lines of values -/

/-- The number of lines of a value; an empty value has one. -/
def valueLines (value : String) : Nat := value.toList.count '\n' + 1

def optionsWeight (options : Options) : Nat := options.total valueLines

/-- The number of lines of all values. -/
def weight (document : Document) : Nat := document.sections.total optionsWeight

theorem valueLines_ofList {text : List Char} (h : '\n' ∉ text) : valueLines (.ofList text) = 1 := by
  simp [valueLines, List.count_eq_zero.2 h]

theorem length_optionLines (option : String × String) :
    (optionLines option).length = valueLines option.2 := by
  obtain ⟨first, rest, hsplit⟩ :=
    List.exists_cons_of_ne_nil (List.splitOn_ne_nil '\n' option.2.toList)
  have hlength := length_splitOn_newline option.2.toList
  rw [hsplit, List.length_cons] at hlength
  simp [optionLines, hsplit, valueLines, ← hlength]

theorem valueLines_extendValue (blanks : Nat) {text : List Char} (h : '\n' ∉ text)
    (value : String) :
    valueLines (Cursor.extendValue blanks text value) ≤ valueLines value + (blanks + 1) := by
  unfold Cursor.extendValue
  split
  · rw [valueLines_ofList h]
    omega
  · have htext := List.count_eq_zero.2 h
    rw [valueLines, valueLines, String.toList_append, String.toList_ofList, List.count_append,
      List.count_append, List.count_cons_self, List.count_replicate_self, htext]
    omega

section

variable (document : Document) (name key value : String) (options : Options)

theorem weight_put :
    weight ⟨document.sections.insert name options⟩ + optionsWeight (document.optionsOf name) =
      document.weight + optionsWeight options := by
  have htotal := document.sections.total_insert optionsWeight name options
  rw [weight, weight, ← htotal, optionsOf, OrderedMap.getD]
  cases document.sections.get? name with
  | none => rfl
  | some old => rfl

theorem weight_openSection : (document.openSection name).weight = document.weight := by
  have hput := document.weight_put name (document.optionsOf name)
  rw [openSection]
  omega

theorem weight_insert_le :
    (document.insert name key value).2.weight ≤ document.weight + valueLines value := by
  have hput := document.weight_put name
    ((document.optionsOf name).insert (StoredKey.free (document.optionsOf name) key) value)
  have htotal := (document.optionsOf name).total_insert valueLines
    (StoredKey.free (document.optionsOf name) key) value
  simp only [insert, optionsWeight] at hput ⊢
  omega

theorem weight_modifyValue_le {f : String → String} {more : Nat}
    (hf : ∀ value, valueLines (f value) ≤ valueLines value + more) :
    (document.modifyValue name key f).weight ≤ document.weight + more := by
  unfold modifyValue
  dsimp only
  split
  · next value hvalue =>
    have hput := document.weight_put name ((document.optionsOf name).insert key (f value))
    have htotal := (document.optionsOf name).total_insert valueLines key (f value)
    have hmore := hf value
    rw [hvalue, Option.elim_some] at htotal
    simp only [optionsWeight] at hput
    omega
  · omega

end

/-! ## Reading -/

namespace Cursor

variable {cursor next after : Cursor} {line : Line} {text : List Char}

/-- The lines of the values, with the blank lines that may still become part of one. -/
def size (cursor : Cursor) : Nat := cursor.document.weight + cursor.blanks

theorem weight_le_size (cursor : Cursor) : cursor.document.weight ≤ cursor.size :=
  Nat.le_add_right _ _

/-- No line is more than one line. -/
def SingleLine (line : Line) : Prop :=
  ∀ indented text, line = .content indented text → '\n' ∉ text

theorem singleLine_ofChars (h : Plain text) : SingleLine (Line.ofChars text) := by
  intro indented content hcontent
  exact (Line.normal_of_ofChars h.newline hcontent).newline

theorem size_enterSection (cursor : Cursor) (name : String) :
    (cursor.enterSection name).size = cursor.document.weight :=
  cursor.document.weight_openSection name

theorem size_readStatement_le (hnewline : '\n' ∉ text) (h : cursor.readStatement text = .ok next) :
    next.size ≤ cursor.size + 1 := by
  unfold readStatement at h
  split at h
  · cases h
  · next name _ _ =>
    cases h
    have hweight := cursor.weight_le_size
    rw [size_enterSection]
    omega
  · split at h
    · cases h
    · next name _ =>
      cases h
      have hvalue := valueLines_ofList fun hmem => hnewline (Line.mem_of_mem_value hmem)
      have hweight := cursor.document.weight_insert_le name (.ofList (Line.keyValue text).1)
        (.ofList (Line.keyValue text).2)
      rw [hvalue] at hweight
      exact Nat.le_trans hweight (Nat.succ_le_succ cursor.weight_le_size)

/-- A line adds at most one line. -/
theorem size_read_le (hline : SingleLine line) (h : cursor.read line = .ok next) :
    next.size ≤ cursor.size + 1 := by
  cases line with
  | blank =>
    cases h
    simp only [size]
    omega
  | comment =>
    cases h
    omega
  | content indented text =>
    have hnewline := hline indented text rfl
    simp only [read] at h
    split at h
    · next name stored _ =>
      cases h
      have hweight := cursor.document.weight_modifyValue_le name stored
        (valueLines_extendValue cursor.blanks hnewline)
      simp only [size, continueOption]
      omega
    · exact size_readStatement_le hnewline h

/-- A header adds nothing, and the blank lines before it are lost. -/
theorem size_read_header (hheader : (Line.headerName? text).isSome)
    (h : cursor.read (.content false text) = .ok next) : next.size = cursor.document.weight := by
  obtain ⟨name, hname⟩ := Option.isSome_iff_exists.1 hheader
  simp only [read, readStatement, hname] at h
  split at h
  · cases h
  · next heq =>
    cases h
    exact size_enterSection _ _
  · next heq => cases heq

/-- Induction on the lines. -/
theorem size_readLines_le {lines : List Line} (hlines : ∀ line ∈ lines, SingleLine line) {n : Nat}
    (h : cursor.readLines n lines = .ok after) : after.size ≤ cursor.size + lines.length := by
  induction lines generalizing cursor n with
  | nil =>
    cases h
    simp
  | cons line rest ih =>
    unfold readLines at h
    split at h
    · next next hnext =>
      have hfirst := size_read_le (hlines line (by simp)) hnext
      have hrest := ih (fun other hother => hlines other (by simp [hother])) h
      rw [List.length_cons]
      omega
    · cases h

theorem readLines_append_eq_ok {n : Nat} {first second : List Line}
    (h : cursor.readLines n (first ++ second) = .ok after) :
    ∃ middle, cursor.readLines n first = .ok middle ∧
      middle.readLines (n + first.length) second = .ok after := by
  rw [readLines_append] at h
  split at h
  · next middle hmiddle => exact ⟨middle, hmiddle, h⟩
  · cases h

theorem readLines_cons_eq_ok {n : Nat} {rest : List Line}
    (h : cursor.readLines n (line :: rest) = .ok after) :
    ∃ next, cursor.read line = .ok next ∧ next.readLines (n + 1) rest = .ok after := by
  unfold readLines at h
  split at h
  · next next hnext => exact ⟨next, hnext, h⟩
  · cases h

/-! ## Reading what has been written -/

/-- The number of options that are misread. -/
def misreadings (entries : List (String × String)) : Nat := entries.countP (Misread ·)

theorem misreadings_append (first second : List (String × String)) :
    misreadings (first ++ second) = misreadings first + misreadings second := List.countP_append

theorem size_readLines_option {option : String × String} (hoption : NormalOption option) {n : Nat}
    (h : cursor.readLines n ((optionLines option).map Line.ofChars) = .ok after) :
    after.size + misreadings [option] ≤ cursor.size + valueLines option.2 := by
  have hlength := length_optionLines option
  have hsingle : ∀ line ∈ (optionLines option).map Line.ofChars, SingleLine line := by
    intro line hline
    obtain ⟨chars, hchars, rfl⟩ := List.mem_map.1 hline
    exact singleLine_ofChars (plain_of_mem_optionLines hoption hchars)
  by_cases hmisread : Misread option
  · obtain ⟨first, rest, hsplit, -, htake, htrimmed, hnewline, -⟩ := hoption.value.exists_lines
    have hlines : optionLines option = firstChars option.1 first :: rest.map furtherChars := by
      rw [optionLines, hsplit]
    have hheader : (Line.headerName? (firstChars option.1 first)).isSome := by
      rw [headerName?_firstChars hoption.ne_empty, ← htake]
      exact hmisread
    have hnormal := normal_firstChars hoption.key hoption.ne_empty htrimmed hnewline
    rw [hlines, List.map_cons, List.forall_mem_cons] at hsingle
    rw [hlines, List.map_cons, ofChars_of_normal hnormal] at h
    obtain ⟨next, hnext, hrest⟩ := readLines_cons_eq_ok h
    have hfirst := size_read_header hheader hnext
    have hfurther := size_readLines_le hsingle.2 hrest
    have hone : misreadings [option] = 1 := by simp [misreadings, hmisread]
    have hweight := cursor.weight_le_size
    rw [hlines, List.length_cons] at hlength
    rw [List.length_map] at hfurther
    omega
  · have hall := size_readLines_le hsingle h
    have hnone : misreadings [option] = 0 := by simp [misreadings, hmisread]
    rw [List.length_map] at hall
    omega

/-- Induction on the options. -/
theorem size_readLines_options {entries : List (String × String)}
    (hentries : ∀ option ∈ entries, NormalOption option) {n : Nat}
    (h : cursor.readLines n ((entries.flatMap optionLines).map Line.ofChars) = .ok after) :
    after.size + misreadings entries ≤
      cursor.size + OrderedMap.sumValues valueLines entries := by
  induction entries generalizing cursor n with
  | nil =>
    cases h
    exact Nat.le_refl _
  | cons option rest ih =>
    rw [List.flatMap_cons, List.map_append] at h
    obtain ⟨middle, hmiddle, hrest⟩ := readLines_append_eq_ok h
    have hfirst := size_readLines_option (hentries option (by simp)) hmiddle
    have hlater := ih (fun other hother => hentries other (by simp [hother])) hrest
    have hcount := misreadings_append [option] rest
    rw [List.singleton_append] at hcount
    rw [hcount, OrderedMap.sumValues]
    omega

/-- Induction on the sections. -/
theorem size_readLines_sections {entries : List (String × Options)}
    (hentries : ∀ entry ∈ entries, NormalName entry.1 ∧
      ∀ option ∈ entry.2.entries, NormalOption option)
    {separator : List (List Char)} (hseparator : ∀ line ∈ separator, line = []) {n : Nat}
    (h : cursor.readLines n ((sectionsLines separator entries).map Line.ofChars) = .ok after) :
    after.size + misreadings (entries.flatMap (·.2.entries)) ≤
      cursor.size + OrderedMap.sumValues optionsWeight entries := by
  induction entries generalizing cursor separator n with
  | nil =>
    cases h
    exact Nat.le_refl _
  | cons entry rest ih =>
    obtain ⟨hname, hoptions⟩ := hentries entry (by simp)
    have hblank := readLines_blank cursor hseparator n
    rw [sectionsLines, List.map_append, List.map_append, List.append_assoc,
      readLines_append_of_ok hblank, sectionLines, List.map_cons] at h
    obtain ⟨middle, hmiddle, hrest⟩ := readLines_append_eq_ok h
    obtain ⟨opened, hopened, hbody⟩ := readLines_cons_eq_ok hmiddle
    rw [read_headerChars _ hname] at hopened
    obtain rfl := Except.ok.inj hopened
    have hheader : (enterSection { cursor with blanks := cursor.blanks + separator.length }
        entry.1).size = cursor.document.weight := size_enterSection _ _
    have hweight := cursor.weight_le_size
    have hfirst := size_readLines_options hoptions hbody
    have hlater := ih (fun other hother => hentries other (by simp [hother])) (by simp) hrest
    rw [hheader] at hfirst
    rw [List.flatMap_cons, misreadings_append, OrderedMap.sumValues, optionsWeight,
      OrderedMap.total]
    omega

end Cursor

/-- A document that can be written is read back from its text exactly if no option is misread. -/
theorem parse_text_iff {document : Document} (h : document.Writable) (origin : String) :
    parse document.text origin = .ok document ↔
      ∀ entry ∈ document.sections.entries, ∀ option ∈ entry.2.entries, ¬ Misread option := by
  refine ⟨fun hparse => ?_, fun hread => parse_text h hread origin⟩
  rw [parse, lines_text h] at hparse
  split at hparse
  · next after hafter =>
    obtain rfl := Except.ok.inj hparse
    have hsize := Cursor.size_readLines_sections h (by simp) hafter
    have hstart : Cursor.size {} = 0 := rfl
    have hnone :
        Cursor.misreadings (after.document.sections.entries.flatMap (·.2.entries)) = 0 := by
      rw [hstart, Cursor.size, weight, OrderedMap.total] at hsize
      omega
    rw [Cursor.misreadings, List.countP_eq_zero] at hnone
    intro entry hentry option hoption hmisread
    exact hnone option (List.mem_flatMap.2 ⟨entry, hentry, hoption⟩) (decide_eq_true hmisread)
  · cases hparse

end IniCompose.Document
