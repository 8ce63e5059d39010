import IniCompose.Document.Format
import IniCompose.Proofs.Document.Additions
import IniCompose.Proofs.Document.NormalForm
import IniCompose.Proofs.OrderedMap.Replay

/-!
# What a text says

Apart from blank lines and comments, a text is a list of statements: headers of sections, and
options with all the lines of their values. A text is read exactly if no header is empty and the
first statement is a header, and what it is read as is made by adding to each section the options
under its headers, in the order of the text.
-/
namespace IniCompose

namespace Document

/-! ## Statements -/

inductive Statement
  | header (name : String)
  | option (key value : String)

/-- An option whose value may be continued, with the blank lines since its last line. -/
structure OpenOption where
  key : String
  value : String
  blanks : Nat := 0

namespace OpenOption

def ofChars (text : List Char) : OpenOption where
  key := .ofList (Line.keyValue text).1
  value := .ofList (Line.keyValue text).2

def addBlank (option : OpenOption) : OpenOption := { option with blanks := option.blanks + 1 }

def extend (option : OpenOption) (text : List Char) : OpenOption where
  key := option.key
  value := Cursor.extendValue option.blanks text option.value

end OpenOption

/-- The option that ends where another statement starts. -/
def closing (current : Option OpenOption) : List Statement :=
  (current.map fun option => .option option.key option.value).toList

/-- The statements of lines after an option, if there is one, whose value they may continue. -/
def statementsAfter : Option OpenOption → List Line → List Statement
  | current, [] => closing current
  | current, .blank :: rest => statementsAfter (current.map .addBlank) rest
  | current, .comment :: rest => statementsAfter current rest
  | some option, .content true text :: rest => statementsAfter (some (option.extend text)) rest
  | current, .content _ text :: rest =>
    closing current ++
      match Line.headerName? text with
      | some name => .header (.ofList name) :: statementsAfter none rest
      | none => statementsAfter (some (.ofChars text)) rest

def linesOf (text : String) : List Line := (Text.lines text.toList).map Line.ofChars

def statements (text : String) : List Statement := statementsAfter none (linesOf text)

/-- The names of the headers, which may repeat. -/
def headers (statements : List Statement) : List String :=
  statements.filterMap fun
    | .header name => some name
    | .option _ _ => none

/-- The options under the headers of a section, where the section `current` is open at the start. -/
def optionsUnder (name : String) : Option String → List Statement → List (String × String)
  | _, [] => []
  | _, .header other :: rest => optionsUnder name (some other) rest
  | current, .option key value :: rest =>
    if current = some name then (key, value) :: optionsUnder name current rest
    else optionsUnder name current rest

/-- What statements add to a document. A header must not be empty, and an option must stand under a
header. -/
def place : Option String → List Statement → Option (List Addition)
  | _, [] => some []
  | _, .header name :: rest =>
    if name = "" then none else (place (some name) rest).map (.opening name :: ·)
  | none, .option _ _ :: _ => none
  | some name, .option key value :: rest =>
    (place (some name) rest).map (.option name key value :: ·)

section

variable {current : Option String} {statements : List Statement} {additions : List Addition}

theorem place_header_eq_some_iff {name : String} :
    place current (.header name :: statements) = some additions ↔
      name ≠ "" ∧ ∃ later, place (some name) statements = some later ∧
        .opening name :: later = additions := by
  simp only [place, Option.ite_none_left_eq_some, Option.map_eq_some_iff, ne_eq]

theorem place_option_eq_some_iff {key value : String} :
    place current (.option key value :: statements) = some additions ↔
      ∃ name later, current = some name ∧ place (some name) statements = some later ∧
        .option name key value :: later = additions := by
  cases current <;> simp [place]

/-- Additions to a section come under its headers. -/
theorem occurrence?_of_place (h : place current statements = some additions) (name : String) :
    additions.filterMap (Addition.occurrence? name) = optionsUnder name current statements := by
  induction statements generalizing current additions with
  | nil =>
    cases h
    rfl
  | cons statement rest ih =>
    cases statement with
    | header other =>
      obtain ⟨-, later, hlater, rfl⟩ := place_header_eq_some_iff.1 h
      have hopening : Addition.occurrence? name (.opening other) = none := rfl
      rw [List.filterMap_cons_none hopening]
      exact ih hlater
    | option key value =>
      obtain ⟨other, later, rfl, hlater, rfl⟩ := place_option_eq_some_iff.1 h
      have hrest := ih hlater
      by_cases hname : other = name
      · subst hname
        simp [optionsUnder, Addition.occurrence?, hrest]
      · simp [optionsUnder, Addition.occurrence?, hname, hrest]

/-- Only headers open sections that are not open already. -/
theorem eraseDups_name_of_place (h : place current statements = some additions)
    {known : List String} (hknown : ∀ name ∈ current, name ∈ known) :
    (known ++ additions.map Addition.name).eraseDups =
      (known ++ headers statements).eraseDups := by
  induction statements generalizing current additions known with
  | nil =>
    cases h
    rfl
  | cons statement rest ih =>
    cases statement with
    | header other =>
      obtain ⟨-, later, hlater, rfl⟩ := place_header_eq_some_iff.1 h
      have hrest := ih hlater (show ∀ name ∈ some other, name ∈ known ++ [other] by simp)
      simpa [headers, Addition.name] using hrest
    | option key value =>
      obtain ⟨other, later, rfl, hlater, rfl⟩ := place_option_eq_some_iff.1 h
      rw [List.map_cons, Addition.name, eraseDups_append_cons_of_mem (hknown other rfl),
        ih hlater hknown]
      rfl

theorem unnumbered_of_place (h : place current statements = some additions)
    (hstatements : ∀ key value, .option key value ∈ statements → ':' ∉ key.toList) :
    ∀ addition ∈ additions, addition.Unnumbered := by
  induction statements generalizing current additions with
  | nil =>
    cases h
    simp
  | cons statement rest ih =>
    have hrest : ∀ key value, .option key value ∈ rest → ':' ∉ key.toList :=
      fun key value hmem => hstatements key value (List.mem_cons_of_mem _ hmem)
    cases statement with
    | header other =>
      obtain ⟨-, later, hlater, rfl⟩ := place_header_eq_some_iff.1 h
      exact List.forall_mem_cons.2 ⟨trivial, ih hlater hrest⟩
    | option key value =>
      obtain ⟨other, later, rfl, hlater, rfl⟩ := place_option_eq_some_iff.1 h
      exact List.forall_mem_cons.2 ⟨hstatements key value (by simp), ih hlater hrest⟩

end

/-! ## Statements of lines -/

section

variable {option : OpenOption} {lines : List Line}

theorem colon_notMem_ofChars (text : List Char) : ':' ∉ (OpenOption.ofChars text).key.toList := by
  intro hcolon
  have hdelimiter := Line.delimiter_key text ':' (by simpa [OpenOption.ofChars] using hcolon)
  simp [Line.isDelimiter] at hdelimiter

/-- A line that continues nothing starts a statement of its own. -/
theorem statementsAfter_content {current : Option OpenOption} {indented : Bool}
    (h : ∀ option, current = some option → indented = true → False) (text : List Char)
    (rest : List Line) :
    statementsAfter current (.content indented text :: rest) =
      closing current ++
        match Line.headerName? text with
        | some name => .header (.ofList name) :: statementsAfter none rest
        | none => statementsAfter (some (.ofChars text)) rest := by
  cases indented with
  | false => cases current <;> rfl
  | true =>
    cases current with
    | none => rfl
    | some option => exact (h option rfl rfl).elim

/-- The statement of an open option comes first. -/
theorem exists_statementsAfter_some (option : OpenOption) (lines : List Line) :
    ∃ value rest, statementsAfter (some option) lines = .option option.key value :: rest := by
  induction lines generalizing option with
  | nil => exact ⟨option.value, [], rfl⟩
  | cons line rest ih =>
    cases line with
    | blank => exact ih option.addBlank
    | comment => exact ih option
    | content indented text =>
      cases indented with
      | true => exact ih (option.extend text)
      | false => exact ⟨option.value, _, rfl⟩

theorem exists_of_mem_closing {current : Option OpenOption} {key value : String}
    (h : .option key value ∈ closing current) : ∃ option ∈ current, option.key = key := by
  cases current with
  | none => cases h
  | some option =>
    cases List.mem_singleton.1 h
    exact ⟨option, rfl, rfl⟩

theorem colon_notMem_statementsAfter {current : Option OpenOption}
    (h : ∀ option ∈ current, ':' ∉ option.key.toList) {key value : String}
    (hmem : .option key value ∈ statementsAfter current lines) : ':' ∉ key.toList := by
  have hclosing {current : Option OpenOption} (h : ∀ option ∈ current, ':' ∉ option.key.toList)
      (hmem : .option key value ∈ closing current) : ':' ∉ key.toList := by
    obtain ⟨option, hoption, rfl⟩ := exists_of_mem_closing hmem
    exact h option hoption
  fun_induction statementsAfter current lines with
  | case1 current => exact hclosing h hmem
  | case2 current rest ih => exact ih (by simpa [OpenOption.addBlank] using h) hmem
  | case3 current rest ih => exact ih h hmem
  | case4 option text rest ih => exact ih (by simpa [OpenOption.extend] using h) hmem
  | case5 current indented text rest hstatement ihheader ihoption =>
    rcases List.mem_append.1 hmem with hmem | hmem
    · exact hclosing h hmem
    · split at hmem
      · exact ihheader (by simp) (by simpa using hmem)
      · exact ihoption (by simpa using colon_notMem_ofChars text) hmem

end

/-! ## Reading -/

/-- Where a cursor stands: behind the statements that make `base`, in a section or before the first
one, and possibly in an option that has been added already. -/
inductive Cursor.Follows : Cursor → Document → Option String → Option OpenOption → Prop
  | preamble {base blanks} : Follows ⟨base, .preamble, blanks⟩ base none none
  | inSection {base name blanks} : Follows ⟨base, .inSection name, blanks⟩ base (some name) none
  | inOption {base name option} :
    Follows ⟨(base.insert name option.key option.value).2,
      .inOption name (base.insert name option.key option.value).1, option.blanks⟩
      base (some name) (some option)

section

variable {cursor : Cursor} {base : Document} {current : Option String} {open? : Option OpenOption}

theorem modifyValue_insert (base : Document) (name key value : String) (f : String → String) :
    (base.insert name key value).2.modifyValue name (base.insert name key value).1 f =
      (base.insert name key (f value)).2 := by
  simp [insert, modifyValue, optionsOf_put, OrderedMap.insert_insert_self]

namespace Cursor.Follows

theorem sectionName?_eq (h : Follows cursor base current open?) :
    cursor.position.sectionName? = current := by
  cases h <;> rfl

/-- The option that is open has been added. -/
theorem place_closing (h : Follows cursor base current open?) (rest : List Statement) :
    (place current (closing open? ++ rest)).map base.addAll =
      (place current rest).map cursor.document.addAll := by
  cases h with
  | preamble | inSection => rfl
  | inOption =>
    simp only [closing, Option.map_some, Option.toList_some, List.singleton_append, place,
      Option.map_map]
    rfl

theorem addBlank (h : Follows cursor base current open?) :
    Follows { cursor with blanks := cursor.blanks + 1 } base current (open?.map .addBlank) := by
  cases h with
  | preamble => exact preamble
  | inSection => exact inSection
  | @inOption base name option => exact @inOption base name option.addBlank

/-- An indented line makes the value of the open option longer. -/
theorem read_continuation {option : OpenOption} (h : Follows cursor base current (some option))
    (text : List Char) :
    ∃ next, cursor.read (.content true text) = .ok next ∧
      Follows next base current (some (option.extend text)) := by
  cases h with
  | @inOption base name option =>
    refine ⟨_, rfl, ?_⟩
    rw [continueOption, modifyValue_insert]
    exact @inOption base name (option.extend text)

/-- Any other line with content is a statement of its own. -/
theorem read_statement (h : Follows cursor base current open?) {indented : Bool}
    (hstatement : ∀ option, open? = some option → indented = true → False) (text : List Char) :
    cursor.read (.content indented text) = cursor.readStatement text := by
  cases indented with
  | false => rfl
  | true =>
    cases h with
    | preamble | inSection => rfl
    | inOption => exact (hstatement _ rfl rfl).elim

end Cursor.Follows

theorem Cursor.toOption_readLines_cons {cursor : Cursor} {line : Line} (n : Nat)
    (rest : List Line) :
    (cursor.readLines n (line :: rest)).toOption =
      (cursor.read line).toOption.bind fun next => (next.readLines (n + 1) rest).toOption := by
  rw [readLines]
  cases cursor.read line <;> rfl

/-- Reading lines adds what their statements add. The induction is on the lines; an open option that
is continued counts as added with the longer value from the start. -/
theorem Cursor.Follows.readLines (h : Follows cursor base current open?) (n : Nat)
    (lines : List Line) :
    (cursor.readLines n lines).toOption.map Cursor.document =
      (place current (statementsAfter open? lines)).map base.addAll := by
  fun_induction statementsAfter open? lines generalizing cursor base current n with
  | case1 open? =>
    have hplace := h.place_closing []
    rw [List.append_nil] at hplace
    rw [hplace]
    rfl
  | case2 open? rest ih =>
    rw [toOption_readLines_cons]
    exact ih h.addBlank (n + 1)
  | case3 open? rest ih =>
    rw [toOption_readLines_cons]
    exact ih h (n + 1)
  | case4 option text rest ih =>
    obtain ⟨next, hread, hnext⟩ := h.read_continuation text
    rw [toOption_readLines_cons, hread]
    exact ih hnext (n + 1)
  | case5 open? indented text rest hstatement ihheader ihoption =>
    rw [toOption_readLines_cons, h.read_statement hstatement, h.place_closing, readStatement,
      h.sectionName?_eq]
    cases hheader : Line.headerName? text with
    | some name =>
      cases name with
      | nil => rfl
      | cons c later =>
        have hname : String.ofList (c :: later) ≠ "" := by simp
        simp only [place, if_neg hname, Option.map_map]
        exact ihheader .inSection (n + 1)
    | none =>
      cases current with
      | none =>
        obtain ⟨value, later, hlater⟩ := exists_statementsAfter_some (.ofChars text) rest
        simp only [hlater]
        rfl
      | some name => exact ihoption .inOption (n + 1)

end

/-- What it takes to read a text, and what it is read as; the origin is only told in faults. -/
theorem parse_eq_ok_iff {text origin : String} {document : Document} :
    parse text origin = .ok document ↔
      ∃ additions, place none (statements text) = some additions ∧
        document = (∅ : Document).addAll additions := by
  have hstart : Cursor.Follows {} ∅ none none := .preamble
  have hread := hstart.readLines 1 (linesOf text)
  have hparse : parse text origin = .ok document ↔
      (Cursor.readLines 1 {} (linesOf text)).toOption.map Cursor.document = some document := by
    unfold parse linesOf
    cases Cursor.readLines 1 {} ((Text.lines text.toList).map Line.ofChars) <;>
      simp [Except.toOption]
  rw [hparse, hread, Option.map_eq_some_iff]
  simp only [eq_comm, statements]

theorem unnumbered_of_place_statements {text : String} {additions : List Addition}
    (h : place none (statements text) = some additions) :
    ∀ addition ∈ additions, addition.Unnumbered :=
  unnumbered_of_place h fun _ _ hmem => colon_notMem_statementsAfter (by simp) hmem

section

variable {text origin : String} {document : Document} (h : parse text origin = .ok document)

include h

theorem numbered_of_parse : document.Numbered := by
  obtain ⟨additions, hplace, rfl⟩ := parse_eq_ok_iff.1 h
  exact numbered_empty.addAll (unnumbered_of_place_statements hplace)

/-- A document that is read has the sections of the headers. -/
theorem names_of_parse : document.names = (headers (statements text)).eraseDups := by
  obtain ⟨additions, hplace, rfl⟩ := parse_eq_ok_iff.1 h
  rw [names_addAll]
  exact eraseDups_name_of_place hplace (by simp)

/-- A section that is read has one occurrence for each option under its headers. -/
theorem occurrences_of_parse (name : String) :
    document.occurrences name = optionsUnder name none (statements text) := by
  obtain ⟨additions, hplace, rfl⟩ := parse_eq_ok_iff.1 h
  rw [numbered_empty.occurrences_addAll (unnumbered_of_place_statements hplace),
    ← occurrence?_of_place hplace]
  rfl

end

end Document

end IniCompose
