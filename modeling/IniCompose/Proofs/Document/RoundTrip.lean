import IniCompose.Proofs.Document.Written
import IniCompose.Proofs.OrderedMap.Replay

/-!
# Reading what has been written

A written document none of whose options is misread is read back as it is. The reader is followed
through the lines of a value, the options of a section and the sections of the document.
-/
namespace IniCompose

open Text

namespace Document

/-- The document of a map of sections with one more section, or with another one in its place. -/
abbrev extended (base : OrderedMap Options) (name : String) (options : Options) : Document :=
  ⟨base.insert name options⟩

section

variable {base : OrderedMap Options} {name key value : String} {options : Options}

@[simp] theorem optionsOf_extended : (extended base name options).optionsOf name = options := by
  simp [optionsOf, OrderedMap.getD]

theorem insert_extended (hnew : key ∉ options.keys) (value : String) :
    (extended base name options).insert name key value =
      (key, extended base name (options.insert key value)) := by
  have hfree : options.contains key = false := by
    rw [← Bool.not_eq_true, OrderedMap.contains_iff_mem_keys]
    exact hnew
  simp [insert, StoredKey.free, hfree, extended, OrderedMap.insert_insert_self]

theorem modifyValue_extended (f : String → String) :
    (extended base name (options.insert key value)).modifyValue name key f =
      extended base name (options.insert key (f value)) := by
  simp [modifyValue, OrderedMap.insert_insert_self]

theorem openSection_of_notMem (hnew : name ∉ base.keys) :
    openSection ⟨base⟩ name = extended base name ∅ := by
  have hnone : base.get? name = none := OrderedMap.get?_eq_none_iff.2 hnew
  simp [openSection, optionsOf, OrderedMap.getD, hnone]

end

namespace Cursor

variable {cursor after : Cursor} {base : OrderedMap Options} {name key value : String}
  {options : Options}

theorem readLines_append (cursor : Cursor) (n : Nat) (first second : List Line) :
    cursor.readLines n (first ++ second) =
      match cursor.readLines n first with
      | .ok after => after.readLines (n + first.length) second
      | .error error => .error error := by
  induction first generalizing cursor n with
  | nil => rfl
  | cons line rest ih =>
    simp only [List.cons_append, readLines]
    cases cursor.read line with
    | error error => rfl
    | ok next =>
      have hn : n + (rest.length + 1) = n + 1 + rest.length := by omega
      rw [List.length_cons, hn]
      exact ih next (n + 1)

theorem readLines_append_of_ok {n : Nat} {first second : List Line}
    (h : cursor.readLines n first = .ok after) :
    cursor.readLines n (first ++ second) = after.readLines (n + first.length) second := by
  rw [readLines_append, h]

/-! ## A value -/

theorem extendValue_of_ne (hvalue : value ≠ "") (blanks : Nat) (text : List Char) :
    extendValue blanks text value =
      value ++ .ofList (List.replicate blanks '\n' ++ '\n' :: text) := by
  rw [extendValue, if_neg hvalue, ← List.replicate_succ, List.replicate_succ', List.append_assoc]
  rfl

/-- The further lines of a value continue it. The induction is on the lines, over the blank lines
that have been passed. -/
theorem readLines_further (rest : List (List Char)) (value : String) (blanks n : Nat)
    (hrest : ∀ line ∈ rest, line = [] ∨ Line.Normal line) (hlast : rest.getLast? ≠ some [])
    (hvalue : value ≠ "") (hblanks : rest = [] → blanks = 0) :
    Cursor.readLines n
        ⟨extended base name (options.insert key value), .inOption name key, blanks⟩
        ((rest.map furtherChars).map Line.ofChars) =
      .ok ⟨extended base name (options.insert key (value ++ .ofList
        (List.replicate blanks '\n' ++ rest.flatMap ('\n' :: ·)))), .inOption name key, 0⟩ := by
  induction rest generalizing value blanks n with
  | nil =>
    obtain rfl := hblanks rfl
    simp [readLines]
  | cons line rest ih =>
    have hrest' : ∀ other ∈ rest, other = [] ∨ Line.Normal other :=
      fun other hother => hrest other (by simp [hother])
    have hlast' : rest.getLast? ≠ some [] := by
      intro h
      exact hlast (by simp [List.getLast?_cons, h])
    rcases hrest line (by simp) with rfl | hline
    · -- an empty line counts only if another one follows, and the last one is not empty
      have hmore : rest ≠ [] := by
        rintro rfl
        simp at hlast
      have hread := ih value (blanks + 1) (n + 1) hrest' hlast' hvalue fun h => absurd h hmore
      simpa [readLines, read, furtherChars, Line.ofChars, List.replicate_succ'] using hread
    · have hextended : extendValue blanks line value ≠ "" := by
        simp [extendValue_of_ne hvalue]
      have hread := ih (extendValue blanks line value) 0 (n + 1) hrest' hlast' hextended
        fun _ => rfl
      rw [extendValue_of_ne hvalue] at hread
      simp only [List.map_cons, readLines, ofChars_furtherChars hline, read, continueOption,
        modifyValue_extended, extendValue_of_ne hvalue]
      simpa [String.append_assoc, ← String.ofList_append] using hread

/-! ## Options -/

/-- An option that is not misread is read as it is written. -/
theorem readLines_option {option : String × String} (hoption : NormalOption option)
    (hread : ¬ Misread option) (hnew : option.1 ∉ options.keys)
    (hdocument : cursor.document = extended base name options)
    (hposition : cursor.position.sectionName? = some name) (n : Nat) :
    cursor.readLines n ((optionLines option).map Line.ofChars) =
      .ok ⟨extended base name (options.insert option.1 option.2), .inOption name option.1, 0⟩ := by
  obtain ⟨first, rest, hsplit, hvalue, htake, htrimmed, hnewline, hfurther, hlast, hempty⟩ :=
    hoption.value.exists_lines
  have hnormal := normal_firstChars hoption.key hoption.ne_empty htrimmed hnewline
  have hheader : Line.headerName? (firstChars option.1 first) = none := by
    refine Option.not_isSome_iff_eq_none.1 fun h => hread ?_
    rw [headerName?_firstChars hoption.ne_empty] at h
    exact ⟨h.1, htake ▸ h.2⟩
  have hstatement : cursor.read (Line.ofChars (firstChars option.1 first)) =
      .ok ⟨extended base name (options.insert option.1 (.ofList first)),
        .inOption name option.1, 0⟩ := by
    rw [ofChars_of_normal hnormal]
    simp only [read, readStatement, hheader, hposition, keyValue_firstChars hoption.key htrimmed,
      String.ofList_toList, addOption, hdocument, insert_extended hnew]
  simp only [optionLines, hsplit, List.map_cons, readLines, hstatement]
  by_cases hfirst : first = []
  · subst hfirst
    obtain rfl := hempty rfl
    rw [show option.2 = .ofList [] from hvalue]
    rfl
  · have hne : String.ofList first ≠ "" := by simpa using hfirst
    have hjoined : String.ofList first ++
        .ofList (List.replicate 0 '\n' ++ rest.flatMap ('\n' :: ·)) = option.2 := by
      simp [hvalue, joinLines, String.ofList_append]
    rw [readLines_further rest _ 0 (n + 1) hfurther hlast hne fun _ => rfl, hjoined]

/-- Induction on the options. -/
theorem readLines_options (cursor : Cursor) {entries : List (String × String)}
    (hentries : ∀ option ∈ entries, NormalOption option ∧ ¬ Misread option)
    (hnodup : (options.keys ++ entries.map Prod.fst).Nodup)
    (hdocument : cursor.document = extended base name options)
    (hposition : cursor.position.sectionName? = some name) (n : Nat) :
    ∃ after, cursor.readLines n ((entries.flatMap optionLines).map Line.ofChars) = .ok after ∧
      after.document = extended base name (options.insertAll entries) := by
  induction entries generalizing cursor options n with
  | nil => exact ⟨cursor, rfl, hdocument⟩
  | cons option rest ih =>
    obtain ⟨hoption, hread⟩ := hentries option (by simp)
    have hnew : option.1 ∉ options.keys := by
      intro hmem
      exact (List.nodup_append.1 hnodup).2.2 _ hmem option.1 (by simp) rfl
    have hfirst := readLines_option hoption hread hnew hdocument hposition n
    have hkeys : (options.insert option.1 option.2).keys = options.keys ++ [option.1] := by
      rw [OrderedMap.keys_insert, if_neg hnew]
    obtain ⟨after, hafter, hrest⟩ := ih
      ⟨extended base name (options.insert option.1 option.2), .inOption name option.1, 0⟩
      (fun other hother => hentries other (by simp [hother])) (by simpa [hkeys] using hnodup)
      rfl rfl (n + ((optionLines option).map Line.ofChars).length)
    refine ⟨after, ?_, hrest⟩
    rw [List.flatMap_cons, List.map_append, readLines_append_of_ok hfirst, hafter]

/-! ## Sections -/

theorem readLines_blank (cursor : Cursor) {separator : List (List Char)}
    (hseparator : ∀ line ∈ separator, line = []) (n : Nat) :
    cursor.readLines n (separator.map Line.ofChars) =
      .ok { cursor with blanks := cursor.blanks + separator.length } := by
  induction separator generalizing cursor n with
  | nil => rfl
  | cons line rest ih =>
    obtain rfl := hseparator line (by simp)
    have hrest := ih { cursor with blanks := cursor.blanks + 1 }
      (fun other hother => hseparator other (by simp [hother])) (n + 1)
    simpa [readLines, read, Line.ofChars, Nat.add_assoc, Nat.add_comm 1] using hrest

/-- A header opens its section, wherever it stands. -/
theorem read_headerChars (cursor : Cursor) (hname : NormalName name) :
    cursor.read (Line.ofChars (headerChars name)) = .ok (cursor.enterSection name) := by
  have hchars : name.toList ≠ [] := by simpa using hname.ne_empty
  obtain ⟨c, rest, hcons⟩ := List.exists_cons_of_ne_nil hchars
  rw [ofChars_headerChars]
  simp only [read, readStatement, headerName?_headerChars hname, hcons]
  rw [← hcons, String.ofList_toList]

/-- A section is read as it is written, wherever it stands. -/
theorem readLines_section (cursor : Cursor) {entry : String × Options} (hname : NormalName entry.1)
    (hoptions : ∀ option ∈ entry.2.entries, NormalOption option ∧ ¬ Misread option)
    (hnew : entry.1 ∉ base.keys) (hdocument : cursor.document = ⟨base⟩) (n : Nat) :
    ∃ after, cursor.readLines n ((sectionLines entry).map Line.ofChars) = .ok after ∧
      after.document = extended base entry.1 entry.2 := by
  have hopened : (cursor.enterSection entry.1).document = extended base entry.1 ∅ := by
    rw [enterSection, hdocument]
    exact openSection_of_notMem hnew
  obtain ⟨after, hafter, hresult⟩ := readLines_options (cursor.enterSection entry.1) hoptions
    (by simpa using entry.2.nodup_keys) hopened rfl (n + 1)
  refine ⟨after, ?_, ?_⟩
  · rw [sectionLines, List.map_cons, readLines, read_headerChars cursor hname]
    exact hafter
  · rw [hresult]
    exact congrArg (extended base entry.1) entry.2.ofList_entries

/-- Induction on the sections. -/
theorem readLines_sections (cursor : Cursor) (base : OrderedMap Options)
    {entries : List (String × Options)}
    (hentries : ∀ entry ∈ entries, NormalName entry.1 ∧
      ∀ option ∈ entry.2.entries, NormalOption option ∧ ¬ Misread option)
    (hnodup : (base.keys ++ entries.map Prod.fst).Nodup) (hdocument : cursor.document = ⟨base⟩)
    (separator : List (List Char)) (hseparator : ∀ line ∈ separator, line = []) (n : Nat) :
    ∃ after, cursor.readLines n ((sectionsLines separator entries).map Line.ofChars) = .ok after ∧
      after.document = ⟨base.insertAll entries⟩ := by
  induction entries generalizing cursor base separator n with
  | nil => exact ⟨cursor, rfl, hdocument⟩
  | cons entry rest ih =>
    obtain ⟨hname, hoptions⟩ := hentries entry (by simp)
    have hnew : entry.1 ∉ base.keys := by
      intro hmem
      exact (List.nodup_append.1 hnodup).2.2 _ hmem entry.1 (by simp) rfl
    have hkeys : (base.insert entry.1 entry.2).keys = base.keys ++ [entry.1] := by
      rw [OrderedMap.keys_insert, if_neg hnew]
    have hblank := readLines_blank cursor hseparator n
    obtain ⟨middle, hmiddle, hextended⟩ := readLines_section
      { cursor with blanks := cursor.blanks + separator.length } hname hoptions hnew
      hdocument (n + (separator.map Line.ofChars).length)
    obtain ⟨after, hafter, hresult⟩ := ih middle (base.insert entry.1 entry.2)
      (fun other hother => hentries other (by simp [hother])) (by simpa [hkeys] using hnodup)
      hextended [[]] (by simp) (n + (separator.map Line.ofChars).length +
        ((sectionLines entry).map Line.ofChars).length)
    refine ⟨after, ?_, hresult⟩
    rw [sectionsLines, List.map_append, List.map_append, List.append_assoc,
      readLines_append_of_ok hblank, readLines_append_of_ok hmiddle, hafter]

end Cursor

/-- A document that can be written is read back from its text if no option is misread. -/
theorem parse_text {document : Document} (h : document.Writable)
    (hread : ∀ entry ∈ document.sections.entries, ∀ option ∈ entry.2.entries, ¬ Misread option)
    (origin : String) : parse document.text origin = .ok document := by
  obtain ⟨after, hafter, hdocument⟩ := Cursor.readLines_sections {} ∅
    (fun entry hentry => ⟨(h entry hentry).1, fun option hoption =>
      ⟨(h entry hentry).2 option hoption, hread entry hentry option hoption⟩⟩)
    (by simpa using document.sections.nodup_keys) rfl [] (by simp) 1
  rw [parse, lines_text h, hafter]
  have hentries : (∅ : OrderedMap Options).insertAll document.sections.entries =
      document.sections := document.sections.ofList_entries
  simp only [hdocument, hentries]

end Document

end IniCompose
