import IniCompose.Proofs.Document.Roles

/-!
# How values are assembled

The value of an option is made of pieces: what stands on its own line behind the delimiter, and the
lines that continue it. Between two pieces it has as many empty lines as there are blank lines in
the text; nothing else is added and nothing of another line gets into it. Every option line is
stored in the section of the last header before it, behind the options of the lines before.
-/
namespace IniCompose

structure Piece where
  /-- The number of blank lines since the piece before. -/
  blanks : Nat
  text : List Char

namespace Piece

/-- The piece on the line of the option itself, if there is one. -/
def start (value : List Char) : List Piece := if value = [] then [] else [⟨0, value⟩]

/-- The pieces one below the other. Blank lines before the first one do not count. -/
def assemble : List Piece → List Char
  | [] => []
  | first :: rest =>
    first.text ++ rest.flatMap fun piece => List.replicate (1 + piece.blanks) '\n' ++ piece.text

@[simp] theorem assemble_start (value : List Char) : assemble (start value) = value := by
  unfold start
  split <;> simp_all [assemble]

end Piece

namespace Role

/-- The pieces on lines that come `blanks` blank lines after the last piece. -/
def pieces : Nat → List Role → List Piece
  | _, [] => []
  | blanks, .blank :: rest => pieces (blanks + 1) rest
  | blanks, .continuation text :: rest => ⟨blanks, text⟩ :: pieces 0 rest
  | blanks, _ :: rest => pieces blanks rest

end Role

namespace Document

open Role

/-- The key of an option line. -/
def optionKey (text : List Char) : String := .ofList (Line.keyValue text).1

/-- The value of an option line to which the lines `own` belong. -/
def optionValue (text : List Char) (own : List Role) : String :=
  .ofList (Piece.assemble (Piece.start (Line.keyValue text).2 ++ pieces 0 own))

/-- The statements of lines with the given roles. -/
def statementsOf : List Role → List Statement
  | [] => []
  | .header name :: rest => .header (.ofList name) :: statementsOf rest
  | .option text :: rest =>
    .option (optionKey text) (optionValue text (own rest)) :: statementsOf rest
  | _ :: rest => statementsOf rest

/-- The keys of the options under the headers of a section. -/
def keysUnder (name : String) (roles : List Role) : List String :=
  (optionsUnder name none (statementsOf roles)).map Prod.fst

/-- What is stored for an option line of a section between other lines. -/
def entryOf (name : String) (before : List Role) (text : List Char) (after : List Role) :
    String × String :=
  (StoredKey.nth (optionKey text) ((keysUnder name before).count (optionKey text)),
    optionValue text (own after))

/-! ## Values -/

namespace OpenOption

/-- An open option behind a further line. -/
def absorb (option : OpenOption) : Role → OpenOption
  | .blank => option.addBlank
  | .continuation text => option.extend text
  | _ => option

theorem key_foldl_absorb (option : OpenOption) (lines : List Role) :
    (lines.foldl absorb option).key = option.key := by
  induction lines generalizing option with
  | nil => rfl
  | cons role rest ih =>
    rw [List.foldl_cons, ih]
    cases role <;> rfl

end OpenOption

/-- A further line makes one more piece of a value. -/
theorem assemble_extendValue {text : List Char} (h : text ≠ []) (blanks : Nat) (value : String)
    (rest : List Piece) :
    Piece.assemble (Piece.start (Cursor.extendValue blanks text value).toList ++ rest) =
      Piece.assemble (Piece.start value.toList ++ ⟨blanks, text⟩ :: rest) := by
  by_cases hvalue : value = ""
  · subst hvalue
    simp [Cursor.extendValue, Piece.start, Piece.assemble, h]
  · have hne : value.toList ≠ [] := by simpa using hvalue
    simp [Cursor.extendValue, Piece.start, Piece.assemble, hvalue, Nat.add_comm 1,
      List.replicate_succ]

/-- The induction is on the lines, over the value and the blank lines so far. -/
theorem value_foldl_absorb (option : OpenOption) {lines : List Role}
    (h : ∀ text, .continuation text ∈ lines → text ≠ []) :
    (lines.foldl OpenOption.absorb option).value =
      .ofList (Piece.assemble (Piece.start option.value.toList ++ pieces option.blanks lines)) := by
  induction lines generalizing option with
  | nil => simp [pieces]
  | cons role rest ih =>
    have hrest : ∀ text, .continuation text ∈ rest → text ≠ [] :=
      fun text hmem => h text (List.mem_cons_of_mem _ hmem)
    rw [List.foldl_cons, ih _ hrest]
    cases role with
    | continuation text =>
      exact congrArg String.ofList (assemble_extendValue (h text List.mem_cons_self) _ _ _)
    | _ => rfl

/-! ## Statements -/

/-- No line with content is without text. -/
theorem ne_nil_of_content_mem {text : String} {indented : Bool} {line : List Char}
    (h : .content indented line ∈ linesOf text) : line ≠ [] := by
  obtain ⟨chars, -, hchars⟩ := List.mem_map.1 h
  exact Line.ne_nil_of_ofChars hchars

/-- The statements of lines are those of their roles. The lines up to the next statement belong to
the option that is open, if there is one. -/
theorem statementsAfter_eq {before : List Role} {open? : Option OpenOption} {lines : List Line}
    (hopen : inOption before = open?.isSome)
    (hlines : ∀ indented text, .content indented text ∈ lines → text ≠ []) :
    statementsAfter open? lines =
      closing (open?.map fun option =>
        (own (rolesAfter before lines)).foldl OpenOption.absorb option) ++
        statementsOf (rolesAfter before lines) := by
  fun_induction statementsAfter open? lines generalizing before with
  | case1 open? => cases open? <;> rfl
  | case2 open? rest ih =>
    have hrest := @ih (before ++ [.blank]) (by simpa [inOption_concat, isStatement] using hopen)
      fun indented text hmem => hlines indented text (List.mem_cons_of_mem _ hmem)
    rw [hrest, Option.map_map]
    rfl
  | case3 open? rest ih =>
    exact @ih (before ++ [.comment]) (by simpa [inOption_concat, isStatement] using hopen)
      fun indented text hmem => hlines indented text (List.mem_cons_of_mem _ hmem)
  | case4 option text rest ih =>
    have hrole : Line.role before (.content true text) = .continuation text := by
      simp [Line.role, hopen]
    have hrest := @ih (before ++ [.continuation text])
      (by simpa [inOption_concat, isStatement] using hopen)
      fun indented text hmem => hlines indented text (List.mem_cons_of_mem _ hmem)
    rw [hrest, rolesAfter, hrole]
    rfl
  | case5 open? indented text rest hstatement ihheader ihoption =>
    have hrest : ∀ indented text, .content indented text ∈ rest → text ≠ [] :=
      fun indented text hmem => hlines indented text (List.mem_cons_of_mem _ hmem)
    have hbegins : (indented && inOption before) = false := by
      cases open? <;> cases indented <;> simp_all
    -- what was open ends here
    have hends {role : Role} (hrole : role.isStatement = true) (later : List Role) :
        (open?.map fun option => (own (role :: later)).foldl OpenOption.absorb option) = open? := by
      rw [own_cons, if_pos hrole]
      cases open? <;> rfl
    cases hheader : Line.headerName? text with
    | some name =>
      have hrole : Line.role before (.content indented text) = .header name := by
        simp [Line.role, hbegins, hheader]
      have hheader := @ihheader (before ++ [.header name])
        (by simp [inOption_concat, isStatement, isOption]) hrest
      rw [rolesAfter, hrole, hends rfl]
      simp only [hheader]
      rfl
    | none =>
      have hrole : Line.role before (.content indented text) = .option text := by
        simp [Line.role, hbegins, hheader]
      have hoption := @ihoption (before ++ [.option text])
        (by simp [inOption_concat, isStatement, isOption]) hrest
      have htexts : ∀ other,
          .continuation other ∈ own (rolesAfter (before ++ [.option text]) rest) → other ≠ [] := by
        intro other hmem
        obtain ⟨indented, hmem⟩ :=
          mem_of_continuation_mem ((List.takeWhile_sublist _).subset hmem)
        exact hrest indented other hmem
      have hvalue := value_foldl_absorb (.ofChars text) htexts
      rw [rolesAfter, hrole, hends rfl]
      simp only [hoption, Option.map_some, closing, Option.toList_some, List.singleton_append,
        OpenOption.key_foldl_absorb, hvalue]
      simp [statementsOf, optionKey, optionValue, OpenOption.ofChars]

theorem statements_eq (text : String) : statements text = statementsOf (roles (linesOf text)) :=
  statementsAfter_eq rfl fun _ _ => ne_nil_of_content_mem

theorem statementsOf_append_option (before after : List Role) (text : List Char) :
    statementsOf (before ++ .option text :: after) =
      statementsOf before ++ .option (optionKey text) (optionValue text (own after)) ::
        statementsOf after := by
  induction before with
  | nil => rfl
  | cons role rest ih =>
    cases role with
    | option other =>
      rw [List.cons_append, statementsOf, ih, own_append_cons rfl]
      rfl
    | header name => simp [statementsOf, ih]
    | blank | comment | continuation other => exact ih

/-- An option among the statements is that of an option line, behind the statements of the lines
before it. -/
theorem exists_of_statementsOf_eq {roles : List Role} {first later : List Statement}
    {key value : String} (h : statementsOf roles = first ++ .option key value :: later) :
    ∃ before line after, roles = before ++ .option line :: after ∧ statementsOf before = first := by
  induction roles generalizing first with
  | nil => simp [statementsOf] at h
  | cons role rest ih =>
    cases role with
    | blank | comment | continuation text =>
      obtain ⟨before, line, after, rfl, hfirst⟩ := ih h
      exact ⟨_ :: before, line, after, rfl, hfirst⟩
    | header name =>
      cases first with
      | nil => simp [statementsOf] at h
      | cons statement first =>
        obtain ⟨rfl, hrest⟩ := List.cons.inj h
        obtain ⟨before, line, after, rfl, rfl⟩ := ih hrest
        exact ⟨.header name :: before, line, after, rfl, rfl⟩
    | option text =>
      cases first with
      | nil => exact ⟨[], text, rest, rfl, rfl⟩
      | cons statement first =>
        obtain ⟨rfl, hrest⟩ := List.cons.inj h
        obtain ⟨before, line, after, rfl, rfl⟩ := ih hrest
        refine ⟨.option text :: before, line, after, rfl, ?_⟩
        rw [statementsOf, own_append_cons rfl]

theorem headers_statementsOf (roles : List Role) :
    headers (statementsOf roles) = (roles.filterMap header?).map .ofList := by
  induction roles with
  | nil => rfl
  | cons role rest ih =>
    cases role with
    | header name => exact congrArg (String.ofList name :: ·) ih
    | _ => exact ih

theorem getLast?_headers_statementsOf (roles : List Role) :
    (headers (statementsOf roles)).getLast? = (Role.openSection roles).map String.ofList := by
  rw [headers_statementsOf, List.getLast?_map]
  rfl

/-! ## Sections -/

theorem getLast?_headers_cons (name : String) (rest : List Statement) (current : Option String) :
    (headers (.header name :: rest)).getLast?.or current =
      (headers rest).getLast?.or (some name) := by
  change (name :: headers rest).getLast?.or current = _
  cases h : (headers rest).getLast? <;> simp [List.getLast?_cons, h]

/-- What stands under the headers of a section is told part by part: at the end of the first part
the section of its last header is open. -/
theorem optionsUnder_append (name : String) (current : Option String)
    (first later : List Statement) :
    optionsUnder name current (first ++ later) =
      optionsUnder name current first ++
        optionsUnder name ((headers first).getLast?.or current) later := by
  induction first generalizing current with
  | nil => rfl
  | cons statement rest ih =>
    cases statement with
    | header other =>
      rw [List.cons_append, optionsUnder, optionsUnder, ih, getLast?_headers_cons]
    | option key value =>
      rw [List.cons_append, optionsUnder, optionsUnder, ih]
      split <;> rfl

/-- An option under the headers of a section is one of the statements, and the section is open where
it stands. -/
theorem exists_of_lt_length_optionsUnder {name : String} {current : Option String}
    {statements : List Statement} {i : Nat}
    (h : i < (optionsUnder name current statements).length) :
    ∃ first key value later, statements = first ++ .option key value :: later ∧
      (headers first).getLast?.or current = some name ∧
      (optionsUnder name current first).length = i := by
  induction statements generalizing current i with
  | nil => cases h
  | cons statement rest ih =>
    cases statement with
    | header other =>
      obtain ⟨first, key, value, later, rfl, hopen, hlength⟩ := ih h
      refine ⟨.header other :: first, key, value, later, rfl, ?_, hlength⟩
      rw [getLast?_headers_cons, hopen]
    | option key value =>
      by_cases hcurrent : current = some name
      · cases i with
        | zero => exact ⟨[], key, value, rest, rfl, hcurrent, rfl⟩
        | succ i =>
          rw [optionsUnder, if_pos hcurrent] at h
          obtain ⟨first, other, text, later, rfl, hopen, hlength⟩ := ih (Nat.lt_of_succ_lt_succ h)
          refine ⟨.option key value :: first, other, text, later, rfl, hopen, ?_⟩
          simp [optionsUnder, hcurrent, ← hlength]
      · rw [optionsUnder, if_neg hcurrent] at h
        obtain ⟨first, other, text, later, rfl, hopen, hlength⟩ := ih h
        exact ⟨.option key value :: first, other, text, later, rfl, hopen,
          by rw [optionsUnder, if_neg hcurrent, hlength]⟩

/-- An option that is placed stands under a header. -/
theorem isSome_of_place {current : Option String} {first later : List Statement}
    {key value : String} {additions : List Addition}
    (h : place current (first ++ .option key value :: later) = some additions) :
    ((headers first).getLast?.or current).isSome := by
  induction first generalizing current additions with
  | nil =>
    cases current with
    | none => cases h
    | some name => rfl
  | cons statement rest ih =>
    cases statement with
    | header name =>
      simp only [List.cons_append, place, Option.ite_none_left_eq_some, Option.map_eq_some_iff] at h
      obtain ⟨-, later, hlater, -⟩ := h
      rw [getLast?_headers_cons]
      exact ih hlater
    | option other value =>
      cases current with
      | none => cases h
      | some name =>
        obtain ⟨later, hlater, -⟩ := Option.map_eq_some_iff.1 h
        exact ih hlater

section

variable {text origin : String} {document : Document} (h : parse text origin = .ok document)

include h

/-- Every section has the options of the option lines under its headers. -/
theorem occurrences_eq (name : String) :
    document.occurrences name = optionsUnder name none (statementsOf (roles (linesOf text))) := by
  rw [occurrences_of_parse h, statements_eq]

/-- An option line stands under a header, and is stored behind the options of its section that come
before it. -/
theorem exists_entries_eq {before after : List Role} {line : List Char}
    (hline : roles (linesOf text) = before ++ .option line :: after) :
    ∃ name, (Role.openSection before).map String.ofList = some name ∧
      (document.optionsOf name).entries[(keysUnder name before).length]? =
        some (entryOf name before line after) := by
  obtain ⟨additions, hplace, -⟩ := parse_eq_ok_iff.1 h
  rw [statements_eq, hline, statementsOf_append_option] at hplace
  have hopen := isSome_of_place hplace
  rw [Option.or_none, getLast?_headers_statementsOf] at hopen
  obtain ⟨name, hname⟩ := Option.isSome_iff_exists.1 hopen
  refine ⟨name, hname, ?_⟩
  have hoccurrences := occurrences_eq h name
  rw [hline, statementsOf_append_option, optionsUnder_append, getLast?_headers_statementsOf, hname,
    Option.some_or, optionsUnder, if_pos rfl] at hoccurrences
  rw [(numbered_of_parse h name).entries_eq]
  change (numberAfter [] (document.occurrences name))[_]? = _
  rw [hoccurrences, numberAfter_append, numberAfter,
    List.getElem?_append_right (by simp [keysUnder])]
  simp [keysUnder, entryOf]

/-- Whatever is stored is stored for an option line. -/
theorem exists_of_mem_entries {name : String} {entry : String × String}
    (hentry : entry ∈ (document.optionsOf name).entries) :
    ∃ before line after, roles (linesOf text) = before ++ .option line :: after ∧
      (Role.openSection before).map String.ofList = some name ∧
      entry = entryOf name before line after := by
  obtain ⟨i, hi, rfl⟩ := List.getElem_of_mem hentry
  have hlength : (document.optionsOf name).entries.length =
      (optionsUnder name none (statementsOf (roles (linesOf text)))).length := by
    rw [← occurrences_eq h name]
    simp [occurrences, Options.occurrences, occurrencesOf]
  obtain ⟨first, key, value, later, hstatements, hopen, hcount⟩ :=
    exists_of_lt_length_optionsUnder (hlength ▸ hi)
  obtain ⟨before, line, after, hline, rfl⟩ := exists_of_statementsOf_eq hstatements
  rw [Option.or_none, getLast?_headers_statementsOf] at hopen
  obtain ⟨other, hother, hstored⟩ := exists_entries_eq h hline
  obtain rfl : other = name := Option.some.inj (hother.symm.trans hopen)
  refine ⟨before, line, after, hline, hother, ?_⟩
  rw [keysUnder, List.length_map, hcount, List.getElem?_eq_getElem hi] at hstored
  exact Option.some.inj hstored

/-- Every option line of a text that is read is stored in the section of the last header before it,
behind the options of the lines before it and with the number of its key among them; and its value
is what stands behind its delimiter and the lines that belong to it, in order, one below the other
with the blank lines between them. Nothing else is stored, and only headers open sections. -/
theorem entries_of_parse :
    (∀ before line after, roles (linesOf text) = before ++ .option line :: after →
      ∃ name, (Role.openSection before).map String.ofList = some name ∧
        (document.optionsOf name).entries[(keysUnder name before).length]? =
          some (entryOf name before line after)) ∧
    (∀ name, ∀ entry ∈ (document.optionsOf name).entries,
      ∃ before line after, roles (linesOf text) = before ++ .option line :: after ∧
        (Role.openSection before).map String.ofList = some name ∧
        entry = entryOf name before line after) ∧
    document.names = (((roles (linesOf text)).filterMap header?).map String.ofList).eraseDups := by
  refine ⟨fun _ _ _ => exists_entries_eq h, fun _ _ => exists_of_mem_entries h, ?_⟩
  rw [names_of_parse h, statements_eq, headers_statementsOf]

end

/-- A key that is repeated under a section that is opened again. Its value starts below the option
line and is interrupted by a note and by lines of blanks. -/
def interrupted : String := "[A]\nk: 0\n[B]\n[A]\nk =\n\n  1\n; note\n\n \n  2\n\n[B]"

theorem entries_of_parse_interrupted :
    ∃ document, parse interrupted "source" = .ok document ∧
      roles (linesOf interrupted) =
        [.header ['A'], .option "k: 0".toList, .header ['B'], .header ['A']] ++
          .option "k =".toList :: [.blank, .continuation ['1'], .comment, .blank, .blank,
            .continuation ['2'], .blank, .header ['B']] ∧
      (document.optionsOf "A").entries[1]? = some ("k:2", "1\n\n\n2") ∧
      document.names = ["A", "B"] := by
  have hread : parse interrupted "source" =
      .ok ⟨.ofList [("A", .ofList [("k", "0"), ("k:2", "1\n\n\n2")]), ("B", ∅)]⟩ := rfl
  have hlines : roles (linesOf interrupted) =
      [.header ['A'], .option "k: 0".toList, .header ['B'], .header ['A']] ++
        .option "k =".toList :: [.blank, .continuation ['1'], .comment, .blank, .blank,
          .continuation ['2'], .blank, .header ['B']] := rfl
  obtain ⟨hstored, -, hnames⟩ := entries_of_parse hread
  obtain ⟨name, hname, hentry⟩ := hstored _ _ _ hlines
  obtain rfl : "A" = name := Option.some.inj hname
  exact ⟨_, hread, hlines, hentry, hnames⟩

end Document

end IniCompose
