import IniCompose.Document.Format
import IniCompose.Proofs.OrderedMap.Entries
import IniCompose.Proofs.Text.Lines

/-!
# The form of documents that have been read

Whatever text a document is read from, its section names, the keys behind its stored keys and its
values are trimmed; a key holds no delimiter, and neither a key nor a further line of a value could
be taken for a comment. What is written of such a document can be read again.
-/
namespace IniCompose

open Text

/-- No reader takes the text for a comment. -/
def Line.Uncommented (text : List Char) : Prop := ∀ c ∈ text.head?, ¬ (c = '#' ∨ c = ';')

/-- The trimmed text of a line that is neither blank nor a comment. -/
structure Line.Normal (text : List Char) : Prop where
  ne_nil : text ≠ []
  trimmed : Trimmed text
  uncommented : Line.Uncommented text
  newline : '\n' ∉ text

structure NormalName (name : String) : Prop where
  ne_empty : name ≠ ""
  trimmed : Trimmed name.toList
  newline : '\n' ∉ name.toList

/-- A key as it is read, which may be empty. -/
structure NormalKey (key : String) : Prop where
  trimmed : Trimmed key.toList
  uncommented : Line.Uncommented key.toList
  delimiter : ∀ c ∈ key.toList, Line.isDelimiter c = false
  newline : '\n' ∉ key.toList

theorem NormalKey.colon_notMem {key : String} (h : NormalKey key) : ':' ∉ key.toList := by
  intro hcolon
  have hdelimiter := h.delimiter ':' hcolon
  simp [Line.isDelimiter] at hdelimiter

/-- The first line of a value and the further ones, of which the last is not empty. -/
structure NormalLines (first : List Char) (rest : List (List Char)) : Prop where
  ne_nil : first ≠ []
  trimmed : Trimmed first
  newline : '\n' ∉ first
  further : ∀ line ∈ rest, line = [] ∨ Line.Normal line
  last : rest.getLast? ≠ some []

/-- A value is empty or consists of lines. -/
def NormalValue (value : String) : Prop :=
  value = "" ∨ ∃ first rest, NormalLines first rest ∧ value = .ofList (joinLines first rest)

def NormalOptions (options : Options) : Prop :=
  ∀ option ∈ options.entries, NormalKey (StoredKey.split option.1).1 ∧ NormalValue option.2

def Document.Normal (document : Document) : Prop :=
  ∀ entry ∈ document.sections.entries, NormalName entry.1 ∧ NormalOptions entry.2

/-! ## Values -/

theorem normalValue_of_line {text : List Char} (htrimmed : Trimmed text) (hnewline : '\n' ∉ text) :
    NormalValue (.ofList text) := by
  by_cases h : text = []
  · exact .inl (by simp [h])
  · exact .inr ⟨text, [], ⟨h, htrimmed, hnewline, by simp, by simp⟩, by simp⟩

/-- A further line makes a normal value of a normal value. -/
theorem NormalValue.extend {value : String} (h : NormalValue value) {text : List Char}
    (htext : Line.Normal text) (blanks : Nat) :
    NormalValue (Document.Cursor.extendValue blanks text value) := by
  unfold Document.Cursor.extendValue
  split
  · exact normalValue_of_line htext.trimmed htext.newline
  · next hne =>
    rcases h with rfl | ⟨first, rest, hlines, rfl⟩
    · exact absurd rfl hne
    · refine .inr ⟨first, rest ++ List.replicate blanks [] ++ [text], ?_, ?_⟩
      · refine ⟨hlines.ne_nil, hlines.trimmed, hlines.newline, ?_, by simp [htext.ne_nil]⟩
        intro line hline
        simp only [List.mem_append, List.mem_replicate, List.mem_singleton] at hline
        rcases hline with (hline | ⟨-, rfl⟩) | rfl
        · exact hlines.further line hline
        · exact .inl rfl
        · exact .inr htext
      · have hblanks : (List.replicate blanks ([] : List Char)).flatMap ('\n' :: ·) =
            List.replicate blanks '\n' := by
          simp [List.flatMap_replicate]
        rw [joinLines_append, joinLines_append, hblanks, ← String.ofList_append,
          ← List.replicate_succ, List.replicate_succ']
        simp

/-! ## Documents -/

theorem normalOptions_empty : NormalOptions ∅ := by
  intro option hoption
  cases hoption

theorem NormalOptions.insert {options : Options} (h : NormalOptions options) {stored value : String}
    (hkey : NormalKey (StoredKey.split stored).1) (hvalue : NormalValue value) :
    NormalOptions (options.insert stored value) := by
  intro option hoption
  rcases OrderedMap.mem_entries_insert hoption with rfl | hoption
  · exact ⟨hkey, hvalue⟩
  · exact h option hoption

namespace Document

variable {document : Document}

theorem normal_empty : (∅ : Document).Normal := by
  intro entry hentry
  cases hentry

theorem Normal.insert (h : document.Normal) {name : String} {options : Options}
    (hname : NormalName name) (hoptions : NormalOptions options) :
    Normal ⟨document.sections.insert name options⟩ := by
  intro entry hentry
  rcases OrderedMap.mem_entries_insert hentry with rfl | hentry
  · exact ⟨hname, hoptions⟩
  · exact h entry hentry

theorem Normal.optionsOf (h : document.Normal) (name : String) :
    NormalOptions (document.optionsOf name) := by
  unfold Document.optionsOf OrderedMap.getD
  cases hget : document.sections.get? name with
  | none => exact normalOptions_empty
  | some options => exact (h _ (OrderedMap.mem_entries_of_get? hget)).2

theorem Normal.modifyValue (h : document.Normal) {name : String} (hname : NormalName name)
    (stored : String) {f : String → String}
    (hf : ∀ value, NormalValue value → NormalValue (f value)) :
    (document.modifyValue name stored f).Normal := by
  unfold Document.modifyValue
  dsimp only
  split
  · next value hvalue =>
    obtain ⟨hkey, hnormal⟩ := h.optionsOf name _ (OrderedMap.mem_entries_of_get? hvalue)
    exact h.insert hname ((h.optionsOf name).insert hkey (hf value hnormal))
  · exact h

end Document

/-! ## Lines -/

namespace Line

variable {line text : List Char}

theorem normal_of_ofChars {indented : Bool} (hline : '\n' ∉ line)
    (h : ofChars line = .content indented text) : Normal text := by
  have hne := ne_nil_of_ofChars h
  obtain ⟨⟨c, hc, hcomment⟩, -, rfl⟩ := ofChars_eq_content_iff.1 h
  refine ⟨hne, trimmed_trim line, fun d hd => ?_, fun hmem => hline (mem_of_mem_trim hmem)⟩
  rw [head?_trim] at hd
  obtain rfl : c = d := Option.mem_unique hc hd
  exact hcomment

theorem normalName_of_headerName? {name : List Char} (h : Normal text)
    (hname : headerName? text = some name) (hne : name ≠ []) : NormalName (.ofList name) := by
  obtain ⟨inner, rfl, rfl⟩ := headerName?_eq_some_iff.1 hname
  refine ⟨by simpa using hne, by simp, fun hmem => h.newline ?_⟩
  have hinner : '\n' ∈ inner := mem_of_mem_trim (by simpa using hmem)
  simp [hinner]

theorem keyValue_cases (text : List Char) :
    (∃ before delimiter after, text = before ++ delimiter :: after ∧
      (∀ c ∈ before, isDelimiter c = false) ∧ keyValue text = (trim before, trim after)) ∨
    (∀ c ∈ text, isDelimiter c = false) ∧ keyValue text = (text, []) := by
  have hparts : keyValue text = ((keyValue text).1, (keyValue text).2) := rfl
  rcases keyValue_eq_iff.1 hparts with
    ⟨before, delimiter, after, htext, -, hbefore, hkey, hvalue⟩ | ⟨hnone, hkey, hvalue⟩
  · exact .inl ⟨before, delimiter, after, htext, hbefore, Prod.ext hkey hvalue⟩
  · exact .inr ⟨hnone, Prod.ext hkey hvalue⟩

theorem delimiter_key (text : List Char) : ∀ c ∈ (keyValue text).1, isDelimiter c = false := by
  rcases keyValue_cases text with ⟨before, _, _, -, hbefore, hparts⟩ | ⟨hnone, hparts⟩ <;>
    rw [hparts]
  · exact fun c hc => hbefore c (mem_of_mem_trim hc)
  · exact hnone

/-- What stands before the first delimiter starts as the line does. -/
theorem normalKey_of_keyValue (h : Normal text) : NormalKey (.ofList (keyValue text).1) := by
  have hdelimiter := delimiter_key text
  rcases keyValue_cases text with ⟨key, delimiter, value, htext, -, hparts⟩ | ⟨-, hparts⟩
  · rw [hparts] at hdelimiter ⊢
    have hnewline : '\n' ∉ key := fun hmem => h.newline (by simp [htext, hmem])
    refine ⟨by simp, ?_, ?_, ?_⟩ <;> simp only [String.toList_ofList]
    · intro d hd
      have hhead : ∀ e ∈ key.head?, e ∈ text.head? := by
        intro e he
        rw [htext, List.head?_append, Option.mem_def.1 he]
        rfl
      have hbound := (trimmed_iff_bounded.1 h.trimmed).1
      rw [trim, trimStart_eq_self_iff.2 fun e he => hbound e (hhead e he)] at hd
      exact h.uncommented d (hhead d (head?_trimEnd hd))
    · exact hdelimiter
    · exact fun hmem => hnewline (mem_of_mem_trim hmem)
  · rw [hparts] at hdelimiter ⊢
    refine ⟨?_, ?_, ?_, ?_⟩ <;> simp only [String.toList_ofList]
    · exact h.trimmed
    · exact h.uncommented
    · exact hdelimiter
    · exact h.newline

theorem mem_of_mem_value {c : Char} (h : c ∈ (keyValue text).2) : c ∈ text := by
  rcases keyValue_cases text with ⟨key, delimiter, value, htext, -, hparts⟩ | ⟨-, hparts⟩
  · rw [hparts] at h
    simp [htext, mem_of_mem_trim h]
  · simp [hparts] at h

theorem trimmed_value (text : List Char) : Trimmed (keyValue text).2 := by
  rcases keyValue_cases text with ⟨_, _, value, -, -, hparts⟩ | ⟨-, hparts⟩ <;> rw [hparts]
  · exact trimmed_trim value
  · exact trim_nil

theorem normalValue_of_keyValue (h : Normal text) : NormalValue (.ofList (keyValue text).2) :=
  normalValue_of_line (trimmed_value text) fun hmem => h.newline (mem_of_mem_value hmem)

end Line

/-! ## Reading -/

namespace Document

namespace Cursor

/-- The document read so far is normal, and so is the name of the open section. -/
def Normal (cursor : Cursor) : Prop :=
  cursor.document.Normal ∧ ∀ name, cursor.position.sectionName? = some name → NormalName name

variable {cursor next : Cursor}

theorem Normal.addOption (h : cursor.Normal) {name : String}
    (hname : cursor.position.sectionName? = some name) {text : List Char}
    (htext : Line.Normal text) :
    (cursor.addOption name (.ofList (Line.keyValue text).1)
      (.ofList (Line.keyValue text).2)).Normal := by
  have hnormal := h.2 name hname
  have hkey := Line.normalKey_of_keyValue htext
  refine ⟨?_, ?_⟩
  · refine Document.Normal.insert h.1 hnormal ((h.1.optionsOf name).insert ?_ ?_)
    · rw [StoredKey.split_free _ hkey.colon_notMem]
      exact hkey
    · exact Line.normalValue_of_keyValue htext
  · rintro other ⟨⟩
    exact hnormal

theorem Normal.readStatement (h : cursor.Normal) {text : List Char} (htext : Line.Normal text)
    (hread : cursor.readStatement text = .ok next) : next.Normal := by
  unfold Cursor.readStatement at hread
  split at hread
  · cases hread
  · next name hempty hname =>
    cases hread
    have hnormal := Line.normalName_of_headerName? htext hname (fun h => hempty (by simp [h]))
    refine ⟨h.1.insert hnormal (h.1.optionsOf _), ?_⟩
    rintro other ⟨⟩
    exact hnormal
  · split at hread
    · cases hread
    · next name hname =>
      cases hread
      exact h.addOption hname htext

theorem Normal.read (h : cursor.Normal) {line : Line}
    (hline : ∀ indented text, line = .content indented text → Line.Normal text)
    (hread : cursor.read line = .ok next) : next.Normal := by
  cases line with
  | blank | comment =>
    cases hread
    exact h
  | content indented text =>
    have htext := hline indented text rfl
    simp only [Cursor.read] at hread
    split at hread
    · next name stored hposition =>
      cases hread
      have hname : NormalName name := h.2 name (by rw [hposition]; rfl)
      refine ⟨h.1.modifyValue hname stored fun value hvalue => hvalue.extend htext _, ?_⟩
      rintro other ⟨⟩
      exact hname
    · exact h.readStatement htext hread

/-- Induction on the lines. -/
theorem Normal.readLines (h : cursor.Normal) {lines : List Line}
    (hlines : ∀ line ∈ lines, ∀ indented text, line = .content indented text → Line.Normal text)
    {n : Nat} (hread : cursor.readLines n lines = .ok next) : next.Normal := by
  induction lines generalizing cursor n with
  | nil =>
    cases hread
    exact h
  | cons line rest ih =>
    unfold Cursor.readLines at hread
    split at hread
    · next after hafter =>
      exact ih (h.read (hlines line (by simp)) hafter)
        (fun other hother => hlines other (by simp [hother])) hread
    · cases hread

end Cursor

/-- What has been read from a text is normal. -/
theorem normal_of_parse {document : Document} {text origin : String}
    (h : parse text origin = .ok document) : document.Normal := by
  unfold parse at h
  split at h
  · next cursor hread =>
    cases h
    refine (Cursor.Normal.readLines ⟨normal_empty, by simp [Position.sectionName?]⟩ ?_ hread).1
    intro line hline indented content hcontent
    obtain ⟨chars, hchars, rfl⟩ := List.mem_map.1 hline
    exact Line.normal_of_ofChars (newline_notMem_of_mem_lines hchars) hcontent
  · cases h

/-! ## Merging -/

variable {document other : Document}

theorem Normal.insertOption (h : document.Normal) {name key value : String}
    (hname : NormalName name) (hkey : NormalKey key) (hvalue : NormalValue value) :
    (document.insert name key value).2.Normal := by
  refine Document.Normal.insert h hname ((h.optionsOf name).insert ?_ hvalue)
  rw [StoredKey.split_free _ hkey.colon_notMem]
  exact hkey

theorem Normal.appendOptions (h : document.Normal) {name : String} (hname : NormalName name)
    {options : Options} (hoptions : NormalOptions options) :
    (document.appendOptions name options).Normal := by
  refine List.foldlRecOn options.entries _ (h.insert hname (h.optionsOf name)) ?_
  intro grown hgrown option hoption
  obtain ⟨hkey, hvalue⟩ := hoptions option hoption
  exact hgrown.insertOption hname hkey hvalue

theorem Normal.merge (h : document.Normal) (hother : other.Normal) :
    (document.merge other).Normal := by
  refine List.foldlRecOn other.sections.entries _ h ?_
  intro grown hgrown entry hentry
  obtain ⟨hname, hoptions⟩ := hother entry hentry
  exact hgrown.appendOptions hname hoptions

/-- Read from a text, or merged of documents that were. -/
inductive Loaded : Document → Prop
  | parse {text origin : String} {read : Document} : parse text origin = .ok read → Loaded read
  | merge {first second : Document} : Loaded first → Loaded second → Loaded (first.merge second)

theorem Loaded.normal (h : document.Loaded) : document.Normal := by
  induction h with
  | parse hparse => exact normal_of_parse hparse
  | merge _ _ ih ihother => exact ih.merge ihother

end Document

end IniCompose
