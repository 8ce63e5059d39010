import IniCompose.Document.Format
import IniCompose.Proofs.Document.Statements
import IniCompose.Proofs.Evaluation.Steps
import Mathlib.Data.List.Forall2

/-!
# Texts one below the other

Texts that are read on their own, and that do not start with an indented line, are read one below
the other as what merging makes of the documents that they are read as. Loading files is thus
reading one text. No option of a later text is taken for part of a value of an earlier one.
-/
namespace IniCompose

namespace Line

theorem ofChars_concat_of_blank {c : Char} (h : Text.isBlank c = true) (line : List Char) :
    ofChars (line ++ [c]) = ofChars line := by
  rw [ofChars, ofChars, Text.trim_concat_of_blank h]
  cases line <;> rfl

theorem ofChars_append_of_blank {blanks : List Char} (h : ∀ c ∈ blanks, Text.isBlank c = true)
    (line : List Char) : ofChars (line ++ blanks) = ofChars line := by
  induction blanks generalizing line with
  | nil => rw [List.append_nil]
  | cons c rest ih =>
    obtain ⟨hc, hrest⟩ := List.forall_mem_cons.1 h
    rw [← List.singleton_append, ← List.append_assoc, ih hrest, ofChars_concat_of_blank hc]

theorem ofChars_trimEnd (line : List Char) : ofChars (Text.trimEnd line) = ofChars line := by
  obtain ⟨blanks, hblanks, hline⟩ := Text.exists_trimEnd_append line
  rw [← ofChars_append_of_blank hblanks (Text.trimEnd line), ← hline]

theorem ofChars_dropReturn (line : List Char) : ofChars (Text.dropReturn line) = ofChars line := by
  rw [← ofChars_trimEnd, Text.trimEnd_dropReturn, ofChars_trimEnd]

/-- The first line with content, if there is one, is not indented. -/
def StartUnindented : List Line → Prop
  | [] => True
  | .content indented _ :: _ => indented = false
  | _ :: rest => StartUnindented rest

end Line

namespace Document

/-! ## Lines and statements of texts one below the other -/

/-- A text that ends with a line feed has an empty line more if something follows. -/
theorem map_ofChars_dropReturn {pieces : List (List Char)} (h : pieces ≠ []) :
    (pieces.map Text.dropReturn).map Line.ofChars =
        (Text.linesOfPieces pieces).map Line.ofChars ∨
      (pieces.map Text.dropReturn).map Line.ofChars =
        (Text.linesOfPieces pieces).map Line.ofChars ++ [.blank] := by
  have hpieces : (pieces.map Text.dropReturn).map Line.ofChars = pieces.map Line.ofChars := by
    simp [Line.ofChars_dropReturn]
  rw [hpieces]
  exact Text.map_linesOfPieces Line.ofChars_dropReturn h

theorem linesOf_append (first later : String) :
    linesOf (first ++ "\n" ++ later) = linesOf first ++ linesOf later ∨
      linesOf (first ++ "\n" ++ later) = linesOf first ++ .blank :: linesOf later := by
  have hpieces := map_ofChars_dropReturn (List.splitOn_ne_nil '\n' first.toList)
  have htext : (first ++ "\n" ++ later).toList = first.toList ++ '\n' :: later.toList := by
    simp
  rw [linesOf, htext, Text.lines_append_newline_cons, List.map_append]
  refine hpieces.imp (fun h => ?_) fun h => ?_
  · rw [h]
    rfl
  · rw [h, List.append_assoc]
    rfl

theorem closing_addBlank (open? : Option OpenOption) :
    closing (open?.map .addBlank) = closing open? := by
  cases open? <;> rfl

/-- Lines that do not start indented continue nothing. -/
theorem statementsAfter_of_startUnindented {lines : List Line} (h : Line.StartUnindented lines)
    (open? : Option OpenOption) :
    statementsAfter open? lines = closing open? ++ statementsAfter none lines := by
  induction lines generalizing open? with
  | nil => exact (List.append_nil _).symm
  | cons line rest ih =>
    cases line with
    | blank => exact (ih h _).trans (by rw [closing_addBlank]; rfl)
    | comment => exact ih h open?
    | content indented text =>
      obtain rfl : indented = false := h
      cases open? <;> rfl

theorem statementsAfter_append (first : List Line) {later : List Line}
    (h : Line.StartUnindented later) (open? : Option OpenOption) :
    statementsAfter open? (first ++ later) =
      statementsAfter open? first ++ statementsAfter none later := by
  fun_induction statementsAfter open? first with
  | case1 open? => exact statementsAfter_of_startUnindented h open?
  | case2 open? rest ih => exact ih
  | case3 open? rest ih => exact ih
  | case4 option text rest ih => exact ih
  | case5 open? indented text rest hstatement ihheader ihoption =>
    rw [List.cons_append, statementsAfter_content hstatement, List.append_assoc]
    split
    · rw [ihheader]
      rfl
    · rw [ihoption]

theorem statements_append (first : String) {later : String}
    (h : Line.StartUnindented (linesOf later)) :
    statements (first ++ "\n" ++ later) = statements first ++ statements later := by
  rcases linesOf_append first later with heq | heq
  · rw [statements, heq]
    exact statementsAfter_append _ h none
  · have hblank : Line.StartUnindented (.blank :: linesOf later) := h
    rw [statements, heq]
    exact statementsAfter_append _ hblank none

/-! ## What they add -/

section

variable {first later : List Statement} {additions others : List Addition}

/-- What is placed without an open section starts with a header. -/
theorem place_of_place_none (h : place none first = some additions) (current : Option String) :
    place current first = some additions := by
  cases first with
  | nil => exact h
  | cons statement rest =>
    cases statement with
    | header name => exact h
    | option key value => cases h

theorem place_append {current : Option String} (h : place current first = some additions)
    (hlater : place none later = some others) :
    place current (first ++ later) = some (additions ++ others) := by
  induction first generalizing current additions with
  | nil =>
    cases h
    exact place_of_place_none hlater current
  | cons statement rest ih =>
    cases statement with
    | header name =>
      obtain ⟨hname, more, hmore, rfl⟩ := place_header_eq_some_iff.1 h
      rw [List.cons_append, place, if_neg hname, ih hmore]
      rfl
    | option key value =>
      obtain ⟨name, more, rfl, hmore, rfl⟩ := place_option_eq_some_iff.1 h
      rw [List.cons_append, place, ih hmore]
      rfl

end

/-! ## Merging -/

/-- What a text is read as does not depend on its name. -/
theorem parse_origin {text origin : String} {document : Document}
    (h : parse text origin = .ok document) (other : String) : parse text other = .ok document :=
  parse_eq_ok_iff.2 (parse_eq_ok_iff.1 h)

/-- Two texts one below the other are read as the merged documents. -/
theorem parse_append {first later origin origin' : String} {document other : Document}
    (h : parse first origin = .ok document) (hlater : parse later origin' = .ok other)
    (hstart : Line.StartUnindented (linesOf later)) (name : String) :
    parse (first ++ "\n" ++ later) name = .ok (document.merge other) := by
  have hnumbered := numbered_of_parse h
  obtain ⟨additions, hplace, rfl⟩ := parse_eq_ok_iff.1 h
  obtain ⟨others, hothers, rfl⟩ := parse_eq_ok_iff.1 hlater
  refine parse_eq_ok_iff.2 ⟨additions ++ others, ?_, ?_⟩
  · rw [statements_append first hstart]
    exact place_append hplace hothers
  · rw [hnumbered.merge_addAll (unnumbered_of_place_statements hothers), addAll_append]

/-- A document is read from each of the texts, whatever they are called. -/
abbrev ReadFrom (texts : List String) (documents : List Document) : Prop :=
  List.Forall₂ (fun text document => ∃ origin, parse text origin = .ok document) texts documents

/-- Induction on the later texts: each one is appended to those before it. -/
theorem parse_intercalate_cons {first origin : String} {document : Document} {texts : List String}
    {documents : List Document} (hfirst : parse first origin = .ok document)
    (h : ReadFrom texts documents)
    (hstart : ∀ text ∈ texts, Line.StartUnindented (linesOf text)) (name : String) :
    parse ("\n".intercalate (first :: texts)) name = .ok (documents.foldl merge document) := by
  induction h generalizing first origin document with
  | nil =>
    rw [String.intercalate_singleton]
    exact parse_origin hfirst name
  | @cons text other texts documents hread _ ih =>
    obtain ⟨origin', hread⟩ := hread
    obtain ⟨hnext, hrest⟩ := List.forall_mem_cons.1 hstart
    have hboth := ih (parse_append hfirst hread hnext origin) hrest
    rwa [String.intercalate_cons_append, ← String.intercalate_cons_cons] at hboth

section

variable {σ : Type} {files : Files} {paths : List String} {documents : List Document}

theorem forall₂_load {texts : List String}
    (hfiles : List.Forall₂ (fun path text => files.readText path = .ok text) paths texts)
    (h : ReadFrom texts documents) :
    List.Forall₂ (fun path loaded => load files path = .ok loaded) paths documents := by
  induction hfiles generalizing documents with
  | nil =>
    cases h
    exact .nil
  | @cons path text paths texts hfile _ ih =>
    cases h with
    | cons hread hrest =>
      obtain ⟨origin, hread⟩ := hread
      refine .cons ?_ (ih hrest)
      rw [load, hfile]
      exact parse_origin hread path

/-- Loading merges what the files are read as. -/
theorem result_loadInto
    (h : List.Forall₂ (fun path loaded => load files path = .ok loaded) paths documents)
    (document : Document) (s : σ) :
    (loadInto files document paths s).result = .ok (documents.foldl merge document) := by
  induction h generalizing document with
  | nil => rfl
  | @cons path loaded paths documents hload _ ih =>
    simp only [loadInto, Journaled.bind_apply, Journaled.ofExcept_apply, hload,
      Journaled.tell_apply, Outcome.result_after]
    exact ih (document.merge loaded)

end

/-- Texts that are read on their own, and none of which starts indented, are read one below the
other as their documents merged in order; and so are files that hold these texts when they are
loaded. -/
theorem parse_intercalate {texts : List String} {documents : List Document}
    (h : ReadFrom texts documents)
    (hstart : ∀ text ∈ texts, Line.StartUnindented (linesOf text)) :
    (∀ origin, parse ("\n".intercalate texts) origin = .ok (documents.foldl merge ∅)) ∧
    ∀ {σ : Type} (files : Files) (paths : List String) (s : σ),
      List.Forall₂ (fun path text => files.readText path = .ok text) paths texts →
        (loadAll files paths s).result = .ok (documents.foldl merge ∅) := by
  refine ⟨fun name => ?_, fun files paths s hfiles => ?_⟩
  · cases h with
    | nil => rfl
    | @cons text document texts documents hread hrest =>
      obtain ⟨origin, hread⟩ := hread
      rw [List.foldl_cons, (numbered_of_parse hread).empty_merge]
      exact parse_intercalate_cons hread hrest (List.forall_mem_cons.1 hstart).2 name
  · exact result_loadInto (forall₂_load hfiles h) ∅ s

/-- Texts that repeat keys and open sections again. The values at the ends of the first and of the
last one go on behind empty lines or lack a first line. -/
def layers : List String :=
  ["[A]\nk: 1\n\n  2\n\n", "# more\n\n[B]\nx\n[A]\nk = 3\n", "", "[A]\nk\n\n  4"]

theorem parse_intercalate_layers :
    ∃ documents, ReadFrom layers documents ∧
      (∀ text ∈ layers, Line.StartUnindented (linesOf text)) ∧
      documents.foldl merge ∅ =
        ⟨.ofList [("A", .ofList [("k", "1\n\n2"), ("k:2", "3"), ("k:3", "4")]),
          ("B", .ofList [("x", "")])]⟩ ∧
      parse ("\n".intercalate layers) "layers" = .ok (documents.foldl merge ∅) := by
  have hread : ReadFrom layers
      [⟨.ofList [("A", .ofList [("k", "1\n\n2")])]⟩,
        ⟨.ofList [("B", .ofList [("x", "")]), ("A", .ofList [("k", "3")])]⟩, ∅,
        ⟨.ofList [("A", .ofList [("k", "4")])]⟩] :=
    .cons ⟨"1", rfl⟩ (.cons ⟨"2", rfl⟩ (.cons ⟨"3", rfl⟩ (.cons ⟨"4", rfl⟩ .nil)))
  have hstart : ∀ text ∈ layers, Line.StartUnindented (linesOf text) := by
    simp only [layers, List.forall_mem_cons]
    exact ⟨rfl, rfl, trivial, rfl, List.forall_mem_nil _⟩
  exact ⟨_, hread, hstart, rfl, (parse_intercalate hread hstart).1 "layers"⟩

end Document

end IniCompose
