import IniCompose.Proofs.Document.Roles
import IniCompose.Proofs.Document.RoundTrip

/-!
# Misplaced lines

A text cannot be read if one of its lines is misplaced: if it is a header without a name, or an
option before the first header. The fault tells the number of the first such line, and nothing
behind that line matters.
-/
namespace IniCompose

open Role

/-- A line of this role cannot stand behind lines of the given roles. -/
inductive Misplaced (before : List Role) : Role → SyntaxError → Prop
  | emptyHeader : Misplaced before (.header []) .emptyHeader
  | outsideSection {text : List Char} (h : Role.openSection before = none) :
    Misplaced before (.option text) (.optionOutsideSection text)

theorem Misplaced.unique {before : List Role} {role : Role} {error other : SyntaxError}
    (h : Misplaced before role error) (hother : Misplaced before role other) : other = error := by
  cases h <;> cases hother <;> rfl

/-- Only statements are misplaced. -/
theorem not_misplaced {before : List Role} {role : Role} (h : role.isStatement = false)
    (error : SyntaxError) : ¬ Misplaced before role error := by
  intro hmisplaced
  cases hmisplaced <;> cases h

namespace Document

/-- The lines before the `n`-th can be read on their own, and the `n`-th one is misplaced behind
them. -/
def OffendsAt (text : String) (n : Nat) (error : SyntaxError) : Prop :=
  ∃ before line after, linesOf text = before ++ line :: after ∧ before.length + 1 = n ∧
    (∃ origin document,
      parse (.ofList (Text.firstLines text.toList before.length)) origin = .ok document) ∧
    Misplaced (roles before) (line.role (roles before)) error

/-! ## Cursors -/

namespace Cursor

/-- What a cursor knows of the lines behind it. -/
structure Stands (cursor : Cursor) (before : List Role) : Prop where
  sectionName?_eq : cursor.position.sectionName? = (Role.openSection before).map String.ofList
  inOption_iff : (∃ name stored, cursor.position = .inOption name stored) ↔ inOption before = true

theorem stands_empty : Stands {} [] := ⟨rfl, by simp⟩

namespace Stands

variable {cursor next : Cursor} {before : List Role} {line : Line} {error : SyntaxError}

/-- Only a statement moves a cursor to another position. -/
theorem concat (h : Stands cursor before) {role : Role} (hrole : role.isStatement = false)
    (hposition : next.position = cursor.position) : Stands next (before ++ [role]) := by
  have hheader : role.header? = none := by cases role <;> first | rfl | cases hrole
  obtain ⟨hsection, hoption⟩ := h
  constructor <;> grind [openSection_concat, inOption_concat]

theorem concat_header (name : List Char) :
    Stands (cursor.enterSection (.ofList name)) (before ++ [.header name]) :=
  ⟨by rw [openSection_concat]; rfl, by simp [enterSection, inOption_concat, isStatement, isOption]⟩

theorem concat_option (h : Stands cursor before) {name : String}
    (hname : cursor.position.sectionName? = some name) (text : List Char) (key value : String) :
    Stands (cursor.addOption name key value) (before ++ [.option text]) := by
  constructor
  · have hopen : (Role.openSection before).map String.ofList = some name :=
      h.sectionName?_eq.symm.trans hname
    simp [openSection_concat, header?, hopen, addOption, Position.sectionName?]
  · simp [addOption, inOption_concat, isStatement, isOption]

/-- A line with content that continues no option is read as a statement. -/
theorem read_statement (h : Stands cursor before) {indented : Bool}
    (hbegins : ¬ (indented && inOption before) = true) (text : List Char) :
    cursor.read (.content indented text) = cursor.readStatement text := by
  cases indented with
  | false => rfl
  | true =>
    cases hposition : cursor.position with
    | preamble | inSection => simp [read, hposition]
    | inOption name stored => exact (hbegins (h.inOption_iff.1 ⟨name, stored, hposition⟩)).elim

/-- A statement is read unless it is misplaced. -/
theorem readStatement_cases (h : Stands cursor before) {text : List Char} {role : Role}
    (hrole : role = match Line.headerName? text with
      | some name => .header name
      | none => .option text) :
    (∃ next, cursor.readStatement text = .ok next ∧ Stands next (before ++ [role]) ∧
      ∀ error, ¬ Misplaced before role error) ∨
    ∃ error, cursor.readStatement text = .error error ∧ Misplaced before role error := by
  unfold readStatement
  cases hheader : Line.headerName? text with
  | some name =>
    obtain rfl : role = .header name := by rw [hrole, hheader]
    cases name with
    | nil => exact .inr ⟨_, rfl, .emptyHeader⟩
    | cons c rest =>
      refine .inl ⟨_, rfl, concat_header (c :: rest), fun error herror => ?_⟩
      cases herror
  | none =>
    obtain rfl : role = .option text := by rw [hrole, hheader]
    cases hname : cursor.position.sectionName? with
    | none =>
      have hopen : Role.openSection before = none := by
        simpa [h.sectionName?_eq] using hname
      exact .inr ⟨_, rfl, .outsideSection hopen⟩
    | some name =>
      refine .inl ⟨_, rfl, h.concat_option hname _ _ _, fun error herror => ?_⟩
      cases herror with
      | outsideSection hopen => simp [h.sectionName?_eq, hopen] at hname

/-- A line is read unless it is misplaced. -/
theorem read_cases (h : Stands cursor before) (line : Line) :
    (∃ next, cursor.read line = .ok next ∧ Stands next (before ++ [line.role before]) ∧
      ∀ error, ¬ Misplaced before (line.role before) error) ∨
    ∃ error, cursor.read line = .error error ∧ Misplaced before (line.role before) error := by
  cases line with
  | blank | comment => exact .inl ⟨_, rfl, h.concat rfl rfl, not_misplaced rfl⟩
  | content indented text =>
    by_cases hcontinues : (indented && inOption before) = true
    · have hrole : Line.role before (.content indented text) = .continuation text :=
        if_pos hcontinues
      obtain ⟨rfl, hoption⟩ := Bool.and_eq_true_iff.1 hcontinues
      obtain ⟨name, stored, hposition⟩ := h.inOption_iff.2 hoption
      have hread : cursor.read (.content true text) =
          .ok (cursor.continueOption name stored text) := by
        simp [read, hposition]
      rw [hrole]
      exact .inl ⟨_, hread, h.concat rfl hposition.symm, not_misplaced rfl⟩
    · rw [h.read_statement hcontinues]
      exact h.readStatement_cases (if_neg hcontinues)

theorem read_ok (h : Stands cursor before) (hread : cursor.read line = .ok next) :
    Stands next (before ++ [line.role before]) := by
  obtain ⟨other, hother, hnext, -⟩ | ⟨error, herror, -⟩ := h.read_cases line
  · rw [hread] at hother
    cases hother
    exact hnext
  · rw [hread] at herror
    cases herror

theorem read_eq_error_iff (h : Stands cursor before) :
    cursor.read line = .error error ↔ Misplaced before (line.role before) error := by
  obtain ⟨next, hread, -, hplaced⟩ | ⟨other, hread, hmisplaced⟩ := h.read_cases line
  · simp [hread, hplaced]
  · rw [hread, Except.error.injEq]
    exact ⟨fun herror => herror ▸ hmisplaced, fun herror => herror.unique hmisplaced⟩

/-- Induction on the lines. -/
theorem readLines {n : Nat} {lines : List Line} (h : Stands cursor before)
    (hread : cursor.readLines n lines = .ok next) :
    Stands next (before ++ rolesAfter before lines) := by
  induction lines generalizing cursor before n with
  | nil =>
    cases hread
    simpa [rolesAfter] using h
  | cons line rest ih =>
    rw [Cursor.readLines] at hread
    cases hline : cursor.read line with
    | error error => simp [hline] at hread
    | ok middle =>
      rw [hline] at hread
      simpa [rolesAfter] using ih (h.read_ok hline) hread

end Stands

/-- Lines cannot be read if those before one of them can and that one cannot. -/
theorem readLines_eq_error_iff {cursor : Cursor} {n m : Nat} {lines : List Line}
    {error : SyntaxError} :
    cursor.readLines n lines = .error (m, error) ↔
      ∃ first line later after, lines = first ++ line :: later ∧ n + first.length = m ∧
        cursor.readLines n first = .ok after ∧ after.read line = .error error := by
  constructor
  · intro h
    induction lines generalizing cursor n with
    | nil => cases h
    | cons line rest ih =>
      rw [readLines] at h
      cases hline : cursor.read line with
      | error other =>
        rw [hline] at h
        cases h
        exact ⟨[], line, rest, cursor, rfl, rfl, rfl, hline⟩
      | ok next =>
        rw [hline] at h
        obtain ⟨first, last, later, after, rfl, hm, hfirst, herror⟩ := ih h
        refine ⟨line :: first, last, later, after, rfl, ?_, ?_, herror⟩
        · rw [List.length_cons]
          omega
        · rw [readLines, hline]
          exact hfirst
  · rintro ⟨first, line, later, after, rfl, rfl, hfirst, herror⟩
    rw [readLines_append_of_ok hfirst, readLines, herror]

end Cursor

/-! ## Texts -/

theorem parse_eq_ok_of_readLines {text : String} {cursor : Cursor}
    (h : Cursor.readLines 1 {} (linesOf text) = .ok cursor) (origin : String) :
    parse text origin = .ok cursor.document := by
  unfold linesOf at h
  rw [parse, h]

theorem parse_eq_error_of_readLines {text : String} {n : Nat} {error : SyntaxError}
    (h : Cursor.readLines 1 {} (linesOf text) = .error (n, error)) (origin : String) :
    parse text origin = .error (.invalidSyntax origin n error.message) := by
  unfold linesOf at h
  rw [parse, h]

theorem linesOf_firstLines {text : String} {n : Nat} (h : n < (linesOf text).length) :
    linesOf (.ofList (Text.firstLines text.toList n)) = (linesOf text).take n := by
  rw [linesOf, linesOf, String.toList_ofList, Text.lines_firstLines (by simpa [linesOf] using h),
    List.map_take]

/-- A text is read up to its first misplaced line. -/
theorem offendsAt_iff {text : String} {n : Nat} {error : SyntaxError} :
    OffendsAt text n error ↔ Cursor.readLines 1 {} (linesOf text) = .error (n, error) := by
  rw [Cursor.readLines_eq_error_iff]
  have hstands {before : List Line} {after : Cursor}
      (h : Cursor.readLines 1 {} before = .ok after) : Cursor.Stands after (roles before) :=
    Cursor.stands_empty.readLines h
  have hfirst {before later : List Line} {line : Line}
      (h : linesOf text = before ++ line :: later) :
      linesOf (.ofList (Text.firstLines text.toList before.length)) = before := by
    rw [linesOf_firstLines (by simp [h]), h, List.take_left]
  constructor
  · rintro ⟨before, line, after, hlines, rfl, ⟨origin, document, hread⟩, hmisplaced⟩
    cases hcursor : Cursor.readLines 1 {} before with
    | error fault =>
      rw [parse_eq_error_of_readLines (by rw [hfirst hlines, hcursor])] at hread
      cases hread
    | ok cursor =>
      exact ⟨before, line, after, cursor, hlines, Nat.add_comm 1 _, hcursor,
        (hstands hcursor).read_eq_error_iff.2 hmisplaced⟩
  · rintro ⟨before, line, after, cursor, hlines, rfl, hcursor, herror⟩
    refine ⟨before, line, after, hlines, Nat.add_comm _ 1, ⟨"", cursor.document, ?_⟩,
      (hstands hcursor).read_eq_error_iff.1 herror⟩
    exact parse_eq_ok_of_readLines (by rw [hfirst hlines, hcursor]) ""

theorem parse_eq_error_of_offendsAt {text : String} {n : Nat} {error : SyntaxError}
    (h : OffendsAt text n error) (origin : String) :
    parse text origin = .error (.invalidSyntax origin n error.message) :=
  parse_eq_error_of_readLines (offendsAt_iff.1 h) origin

/-- The lines up to an offence tell it. -/
theorem OffendsAt.of_take_eq {text other : String} {n : Nat} {error : SyntaxError}
    (h : OffendsAt text n error)
    (hlines : (Text.lines other.toList).take n = (Text.lines text.toList).take n) :
    OffendsAt other n error := by
  rw [offendsAt_iff, Cursor.readLines_eq_error_iff] at h ⊢
  obtain ⟨before, line, after, cursor, htext, rfl, hcursor, herror⟩ := h
  have htake : (linesOf other).take (1 + before.length) = before ++ [line] := by
    rw [linesOf, ← List.map_take, hlines, List.map_take]
    change (linesOf text).take _ = _
    rw [htext, Nat.add_comm, List.take_length_add_append]
    rfl
  refine ⟨before, line, (linesOf other).drop (1 + before.length), cursor, ?_, rfl, hcursor, herror⟩
  have hparts := (linesOf other).take_append_drop (1 + before.length)
  rw [htake] at hparts
  simpa using hparts.symm

/-- A text cannot be read exactly if one of its lines is misplaced behind lines that can be read on
their own. There is only one such line; the fault tells its number, and so does that of every other
text with the same lines up to there. -/
theorem parse_fails_iff (text origin : String) :
    ((∃ fault, parse text origin = .error fault) ↔ ∃ n error, OffendsAt text n error) ∧
    ∀ n error, OffendsAt text n error →
      parse text origin = .error (.invalidSyntax origin n error.message) ∧
      (∀ m other, OffendsAt text m other → m = n ∧ other = error) ∧
      ∀ other, (Text.lines other.toList).take n = (Text.lines text.toList).take n →
        parse other origin = .error (.invalidSyntax origin n error.message) := by
  refine ⟨⟨?_, ?_⟩, fun n error h => ⟨parse_eq_error_of_offendsAt h origin, ?_, ?_⟩⟩
  · rintro ⟨fault, hfault⟩
    cases hread : Cursor.readLines 1 {} (linesOf text) with
    | ok cursor =>
      rw [parse_eq_ok_of_readLines hread] at hfault
      cases hfault
    | error offence => exact ⟨offence.1, offence.2, offendsAt_iff.2 hread⟩
  · rintro ⟨n, error, h⟩
    exact ⟨_, parse_eq_error_of_offendsAt h origin⟩
  · intro m other hother
    have hboth := (offendsAt_iff.1 hother).symm.trans (offendsAt_iff.1 h)
    simpa using hboth
  · exact fun other hother => parse_eq_error_of_offendsAt (h.of_take_eq hother) origin

/-- The first header without a name is part of a value, the second one is misplaced. -/
def nameless : String := "[A]\r\nk:\n  [ ]\n# note\n\n[ ]\nk"

theorem parse_fails_iff_nameless :
    OffendsAt nameless 6 .emptyHeader ∧
      parse nameless "source" = .error (.invalidSyntax "source" 6 "empty section header") ∧
      ∀ n error, OffendsAt nameless n error → n = 6 := by
  have hoffends : OffendsAt nameless 6 .emptyHeader := offendsAt_iff.2 rfl
  obtain ⟨hparse, hunique, -⟩ := (parse_fails_iff nameless "source").2 6 _ hoffends
  exact ⟨hoffends, hparse, fun n error h => (hunique n error h).1⟩

end Document

end IniCompose
