import IniCompose.Document.Basic
import IniCompose.Files
import IniCompose.Journal

/-!
# Documents as texts

A text is read line by line. What a line can say without regard to the lines before it is settled
first; a cursor then goes through the lines once and knows what they continue. Sections are written
so that they are read again.
-/
namespace IniCompose

/-! ## Lines

Only a line with content can open a section, give an option or continue a value; which of these it
does depends on the lines before. -/

inductive Line
  | blank
  | comment
  /-- The trimmed text of a line and whether the line starts with a blank character. -/
  | content (indented : Bool) (text : List Char)
  deriving DecidableEq

namespace Line

def ofChars (line : List Char) : Line :=
  match Text.trim line with
  | [] => .blank
  | c :: rest =>
    if c = '#' ∨ c = ';' then .comment
    else .content (line.head?.any Text.isBlank) (c :: rest)

/-- The trimmed text between the brackets of a section header. -/
def headerName? : List Char → Option (List Char)
  | '[' :: rest => if rest.getLast? = some ']' then some (Text.trim rest.dropLast) else none
  | _ => none

/-- The delimiters between key and value. -/
def isDelimiter (c : Char) : Bool := c = ':' || c = '='

/-- Key and value of an option line, both trimmed; without a delimiter the value is empty. -/
def keyValue (text : List Char) : List Char × List Char :=
  match Text.cutFirst? isDelimiter text with
  | some (key, value) => (Text.trim key, Text.trim value)
  | none => (text, [])

variable {line text : List Char}

theorem ofChars_eq_blank_iff : ofChars line = .blank ↔ ∀ c ∈ line, Text.isBlank c = true := by
  rw [← Text.trim_eq_nil_iff]
  unfold ofChars
  cases Text.trim line with
  | nil => simp
  | cons c rest => by_cases h : c = '#' ∨ c = ';' <;> simp [h]

/-- The first character that is not blank opens a comment. -/
theorem ofChars_eq_comment_iff :
    ofChars line = .comment ↔ ∃ c ∈ line.find? (!Text.isBlank ·), c = '#' ∨ c = ';' := by
  rw [← Text.head?_trim]
  unfold ofChars
  cases Text.trim line with
  | nil => simp
  | cons c rest => by_cases h : c = '#' ∨ c = ';' <;> simp [h]

/-- Every other line that is not blank says its trimmed text. -/
theorem ofChars_eq_content_iff {indented : Bool} :
    ofChars line = .content indented text ↔
      (∃ c ∈ line.find? (!Text.isBlank ·), ¬ (c = '#' ∨ c = ';')) ∧
        indented = line.head?.any Text.isBlank ∧ text = Text.trim line := by
  rw [← Text.head?_trim]
  unfold ofChars
  cases Text.trim line with
  | nil => simp
  | cons c rest =>
    have hfirst : (∃ d ∈ (c :: rest).head?, ¬ (d = '#' ∨ d = ';')) ↔ ¬ (c = '#' ∨ c = ';') := by
      simp
    rw [hfirst]
    by_cases h : c = '#' ∨ c = ';'
    · simp only [h, if_true, reduceCtorEq, not_true_eq_false, false_and]
    · simp only [h, if_false, content.injEq, not_false_eq_true, true_and]
      exact and_congr eq_comm eq_comm

theorem ne_nil_of_ofChars {indented : Bool} (h : ofChars line = .content indented text) :
    text ≠ [] := by
  obtain ⟨⟨c, hc, -⟩, -, rfl⟩ := ofChars_eq_content_iff.1 h
  intro hnil
  simp [← Text.head?_trim, hnil] at hc

/-- A header stands between brackets, with nothing before or after them. -/
theorem headerName?_eq_some_iff {name : List Char} :
    headerName? text = some name ↔
      ∃ inner, text = '[' :: inner ++ [']'] ∧ name = Text.trim inner := by
  constructor
  · intro h
    unfold headerName? at h
    split at h
    · split at h
      · next hlast =>
        obtain ⟨inner, rfl⟩ := List.getLast?_eq_some_iff.1 hlast
        rw [List.dropLast_concat] at h
        exact ⟨inner, rfl, (Option.some.inj h).symm⟩
      · cases h
    · cases h
  · rintro ⟨inner, rfl, rfl⟩
    simp [headerName?]

/-- Key and value stand before and after the first delimiter, if there is one. -/
theorem keyValue_eq_iff {key value : List Char} :
    keyValue text = (key, value) ↔
      (∃ before delimiter after, text = before ++ delimiter :: after ∧
        isDelimiter delimiter = true ∧ (∀ c ∈ before, isDelimiter c = false) ∧
        key = Text.trim before ∧ value = Text.trim after) ∨
      (∀ c ∈ text, isDelimiter c = false) ∧ key = text ∧ value = [] := by
  constructor
  · intro h
    unfold keyValue at h
    cases hcut : Text.cutFirst? isDelimiter text with
    | none =>
      obtain ⟨rfl, rfl⟩ : text = key ∧ [] = value := by simpa [hcut] using h
      exact .inr ⟨Text.cutFirst?_eq_none_iff.1 hcut, rfl, rfl⟩
    | some parts =>
      obtain ⟨rfl, rfl⟩ : Text.trim parts.1 = key ∧ Text.trim parts.2 = value := by
        simpa [hcut] using h
      obtain ⟨delimiter, hdelimiter, htext, hbefore⟩ := Text.cutFirst?_eq_some_iff.1 hcut
      exact .inl ⟨_, delimiter, _, htext, hdelimiter, hbefore, rfl, rfl⟩
  · rintro (⟨before, delimiter, after, htext, hdelimiter, hbefore, rfl, rfl⟩ | ⟨hnone, rfl, rfl⟩)
    · have hcut := Text.cutFirst?_eq_some_iff.2 ⟨delimiter, hdelimiter, htext, hbefore⟩
      simp only [keyValue, hcut]
    · have hcut := Text.cutFirst?_eq_none_iff.2 hnone
      simp only [keyValue, hcut]

end Line

/-! ## Reading

An indented line continues the value of the last option of the open section; blank lines inside a
value are kept, those after it are not. Comments leave no trace. -/

/-- Why a line cannot be read where it stands. -/
inductive SyntaxError
  | emptyHeader
  | optionOutsideSection (text : List Char)
  deriving DecidableEq

def SyntaxError.message : SyntaxError → String
  | .emptyHeader => "empty section header"
  | .optionOutsideSection text => "option outside of section: " ++ .ofList text

namespace Document

/-- Where the next line stands. -/
inductive Position
  | preamble
  | inSection (name : String)
  /-- After an option of the section, which an indented line would continue. -/
  | inOption (name stored : String)
  deriving DecidableEq

def Position.sectionName? : Position → Option String
  | preamble => none
  | inSection name => some name
  | inOption name _ => some name

structure Cursor where
  document : Document := ∅
  position : Position := .preamble
  /-- The blank lines since the last line that gave or continued a value. -/
  blanks : Nat := 0
  deriving DecidableEq

namespace Cursor

/-- A value with a further line: the blank lines before it are kept, unless they come first. -/
def extendValue (blanks : Nat) (text : List Char) (value : String) : String :=
  if value = "" then .ofList text
  else value ++ .ofList ('\n' :: List.replicate blanks '\n' ++ text)

def enterSection (cursor : Cursor) (name : String) : Cursor where
  document := cursor.document.openSection name
  position := .inSection name

def addOption (cursor : Cursor) (name key value : String) : Cursor :=
  let (stored, document) := cursor.document.insert name key value
  { document, position := .inOption name stored }

def continueOption (cursor : Cursor) (name stored : String) (text : List Char) : Cursor where
  document := cursor.document.modifyValue name stored (extendValue cursor.blanks text)
  position := .inOption name stored

/-- Reads a line that continues no value: a section header or an option. -/
def readStatement (cursor : Cursor) (text : List Char) : Except SyntaxError Cursor :=
  match Line.headerName? text with
  | some [] => .error .emptyHeader
  | some name => .ok (cursor.enterSection (.ofList name))
  | none =>
    match cursor.position.sectionName? with
    | none => .error (.optionOutsideSection text)
    | some name =>
      let (key, value) := Line.keyValue text
      .ok (cursor.addOption name (.ofList key) (.ofList value))

def read (cursor : Cursor) : Line → Except SyntaxError Cursor
  | .blank => .ok { cursor with blanks := cursor.blanks + 1 }
  | .comment => .ok cursor
  | .content indented text =>
    match indented, cursor.position with
    | true, .inOption name stored => .ok (cursor.continueOption name stored text)
    | _, _ => cursor.readStatement text

/-- Reads lines from line number `n` on; a failure tells the number of the offending line. -/
def readLines (n : Nat) (cursor : Cursor) : List Line → Except (Nat × SyntaxError) Cursor
  | [] => .ok cursor
  | line :: rest =>
    match cursor.read line with
    | .ok cursor => cursor.readLines (n + 1) rest
    | .error error => .error (n, error)

end Cursor

/-- Reads a text; `origin` names it in faults. -/
def parse (text origin : String) : Except Fault Document :=
  match Cursor.readLines 1 {} ((Text.lines text.toList).map Line.ofChars) with
  | .ok cursor => .ok cursor.document
  | .error (line, error) => .error (.invalidSyntax origin line error.message)

/-! ## Loading from files

Files are read and merged in order, so that the options of later files come after those of earlier
ones. Every file that has been merged is announced. -/

def load (files : Files) (path : String) : Except Fault Document :=
  match files.readText path with
  | .ok text => parse text path
  | .error error => .error (.unreadable path error)

/-- Merges the files at `paths` into `document`. -/
def loadInto {σ : Type} (files : Files) (document : Document) :
    List String → Journaled σ Fault Document
  | [] => pure document
  | path :: rest => do
    let loaded ← .ofExcept (load files path)
    .tell (.message .debug ("loaded " ++ path))
    loadInto files (document.merge loaded) rest

def loadAll {σ : Type} (files : Files) (paths : List String) : Journaled σ Fault Document :=
  loadInto files ∅ paths

/-! ## Writing

The text of a section whose keys need no suffix: a header, then each key with the first line of its
value, and the further lines of the value indented. Empty lines of a value stay empty. -/

def continuationIndent : String := "    "

def headerLine (name : String) : String := "[" ++ name ++ "]\n"

/-- The line of a key with the first line of its value. -/
def firstLine (key : String) (line : List Char) : String :=
  if line.isEmpty then key ++ ":\n" else key ++ ": " ++ .ofList line ++ "\n"

def continuationLine (line : List Char) : String :=
  if line.isEmpty then "\n" else continuationIndent ++ .ofList line ++ "\n"

def optionText (key value : String) : String :=
  match value.toList.splitOn '\n' with
  | [] => firstLine key []
  | first :: rest => firstLine key first ++ String.join (rest.map continuationLine)

def sectionText (name : String) (options : Options) : String :=
  headerLine name ++
    String.join (options.entries.map fun option => optionText option.1 option.2)

end Document

end IniCompose
