import IniCompose.Proofs.Document.Merging
import IniCompose.Proofs.Document.RoundTrip

/-!
# Layout

What a text is read as does not depend on its line ends, on blanks at the ends of its lines or on
its comments, wherever they stand. Comments count as lines where a fault tells a line number.
-/
namespace IniCompose

open Text

namespace Line

/-- The first character that is not blank opens a comment. -/
def isComment (line : List Char) : Bool :=
  (line.find? (!isBlank ·)).any fun c => c = '#' || c = ';'

theorem map_ofChars_trimEnd (lines : List (List Char)) :
    (lines.map trimEnd).map ofChars = lines.map ofChars := by
  simp [Function.comp_def, ofChars_trimEnd]

theorem ofChars_of_isComment {line : List Char} (h : isComment line = true) :
    ofChars line = .comment :=
  ofChars_eq_comment_iff.2 (by simpa [isComment, Option.any_eq_true] using h)

end Line

namespace Document

/-! ## Line ends -/

/-- What lines are read as in a text of the given name. -/
def parseLines (origin : String) (lines : List Line) : Except Fault Document :=
  match Cursor.readLines 1 {} lines with
  | .ok cursor => .ok cursor.document
  | .error (line, error) => .error (.invalidSyntax origin line error.message)

theorem parse_eq_parseLines (text origin : String) :
    parse text origin = parseLines origin (linesOf text) := rfl

theorem parseLines_concat_blank (origin : String) (lines : List Line) :
    parseLines origin (lines ++ [.blank]) = parseLines origin lines := by
  rw [parseLines, parseLines, Cursor.readLines_append]
  cases Cursor.readLines 1 {} lines <;> rfl

/-- It does not matter where line feeds have returns before them, or whether there is one at the
end. -/
theorem parse_eq_pieces (text origin : String) :
    parse text origin =
      parseLines origin ((text.toList.splitOn '\n').map Line.ofChars) := by
  have hpieces : (text.toList.splitOn '\n').map Line.ofChars =
      ((text.toList.splitOn '\n').map dropReturn).map Line.ofChars := by
    simp [Line.ofChars_dropReturn]
  rw [hpieces]
  rcases map_ofChars_dropReturn (List.splitOn_ne_nil '\n' text.toList) with hlines | hlines
  · rw [hlines]
    rfl
  · rw [hlines, parseLines_concat_blank]
    rfl

/-- Line by line the texts are the same, but for blanks at the ends of the lines. -/
def SameLines (text other : String) : Prop :=
  (other.toList.splitOn '\n').map trimEnd = (text.toList.splitOn '\n').map trimEnd

instance (text other : String) : Decidable (SameLines text other) :=
  inferInstanceAs (Decidable (_ = _))

theorem parse_of_sameLines {text other : String} (h : SameLines text other) (origin : String) :
    parse other origin = parse text origin := by
  have hlines := congrArg (List.map Line.ofChars) h
  rw [Line.map_ofChars_trimEnd, Line.map_ofChars_trimEnd] at hlines
  rw [parse_eq_pieces, parse_eq_pieces, hlines]

/-- The characters with a return before every line feed. -/
def addReturns (text : List Char) : List Char :=
  text.flatMap fun c => if c = '\n' then ['\r', '\n'] else [c]

def withReturns (text : String) : String := .ofList (addReturns text.toList)

theorem sameLines_withReturns (text : String) : SameLines text (withReturns text) := by
  rw [SameLines, withReturns, String.toList_ofList]
  induction text.toList with
  | nil => rfl
  | cons c rest ih =>
    by_cases hc : c = '\n'
    · subst hc
      have hreturn : trimEnd ['\r'] = [] := by decide
      simpa [addReturns, List.splitOn_cons_eq_if_modifyHead, hreturn] using ih
    · have hreturns : addReturns (c :: rest) = c :: addReturns rest := by simp [addReturns, hc]
      rw [hreturns, List.splitOn_cons_eq_if_modifyHead, List.splitOn_cons_eq_if_modifyHead,
        if_neg (by simpa using hc), if_neg (by simpa using hc)]
      obtain ⟨first, others, hrest⟩ := List.exists_cons_of_ne_nil (List.splitOn_ne_nil '\n' rest)
      obtain ⟨piece, pieces, hpieces⟩ :=
        List.exists_cons_of_ne_nil (List.splitOn_ne_nil '\n' (addReturns rest))
      rw [hrest, hpieces] at ih ⊢
      obtain ⟨hfirst, hothers⟩ := List.cons.inj ih
      rw [List.modifyHead_cons, List.modifyHead_cons, List.map_cons, List.map_cons, trimEnd_cons,
        hfirst, ← trimEnd_cons, hothers]

/-! ## Comments -/

/-- The lines with `comments i` behind the first `i` of them. -/
def withComments (comments : Nat → List (List Char)) : List (List Char) → List (List Char)
  | [] => comments 0
  | line :: rest => comments 0 ++ line :: withComments (fun i => comments (i + 1)) rest

/-- The number of comments before the `n`-th line. -/
def commentsBefore (comments : Nat → List (List Char)) (n : Nat) : Nat :=
  ((List.range n).flatMap comments).length

/-- The other text has the same lines, but for blanks at their ends, and the comments between
them. -/
structure Commented (comments : Nat → List (List Char)) (text other : String) : Prop where
  isComment : ∀ i, ∀ line ∈ comments i, Line.isComment line = true
  lines_eq : (lines other.toList).map trimEnd =
    (withComments comments (lines text.toList)).map trimEnd

/-- Comments behind the first `n` lines only. -/
def commentsAt (n : Nat) (comments : List (List Char)) (i : Nat) : List (List Char) :=
  if i = n then comments else []

theorem withComments_nil (lines : List (List Char)) : withComments (fun _ => []) lines = lines := by
  induction lines <;> grind [withComments]

theorem withComments_commentsAt (first comments later : List (List Char)) :
    withComments (commentsAt first.length comments) (first ++ later) =
      first ++ (comments ++ later) := by
  induction first with
  | nil =>
    cases later <;> simp [withComments, commentsAt, withComments_nil]
  | cons line rest ih =>
    have hrest : (fun i => commentsAt (line :: rest).length comments (i + 1)) =
        commentsAt rest.length comments := by
      grind [commentsAt]
    rw [List.cons_append, withComments, hrest, ih]
    simp [commentsAt]

/-- Comments may be inserted where a line starts. -/
theorem commented_insert {first comments : List (List Char)}
    (hfirst : ∀ line ∈ first, '\n' ∉ line)
    (hcomments : ∀ line ∈ comments, '\n' ∉ line ∧ Line.isComment line = true)
    (later : List Char) :
    Commented (commentsAt first.length comments) (.ofList (unlines first ++ later))
      (.ofList (unlines first ++ (unlines comments ++ later))) := by
  refine ⟨by grind [commentsAt], ?_⟩
  have hlines := withComments_commentsAt (first.map dropReturn) comments (lines later)
  rw [List.length_map] at hlines
  rw [String.toList_ofList, String.toList_ofList, lines_unlines_append hfirst,
    lines_unlines_append hfirst, lines_unlines_append fun line hline => (hcomments line hline).1,
    hlines]
  simp [trimEnd_dropReturn]

/-- A fault in a text with further comments. -/
def moved (comments : Nat → List (List Char)) : Fault → Fault
  | .invalidSyntax origin line detail =>
    .invalidSyntax origin (line + commentsBefore comments line) detail
  | fault => fault

theorem commentsBefore_succ (comments : Nat → List (List Char)) (n : Nat) :
    commentsBefore comments (n + 1) =
      (comments 0).length + commentsBefore (fun i => comments (i + 1)) n := by
  simp [commentsBefore, List.range_succ_eq_map, List.flatMap_map]

namespace Cursor

/-- Where lines start to count matters only for the number in a failure. -/
theorem readLines_eq_mapError (cursor : Cursor) (n : Nat) (lines : List Line) :
    cursor.readLines n lines =
      (cursor.readLines 0 lines).mapError fun fault => (n + fault.1, fault.2) := by
  induction lines generalizing cursor n with
  | nil => rfl
  | cons line rest ih =>
    rw [readLines, readLines]
    cases cursor.read line with
    | error error => rfl
    | ok next =>
      simp only [ih next (n + 1), ih next (0 + 1)]
      cases next.readLines 0 rest with
      | error fault => simp [Except.mapError]; omega
      | ok after => rfl

theorem readLines_comments {comments : List (List Char)}
    (h : ∀ line ∈ comments, Line.isComment line = true) (cursor : Cursor) (n : Nat)
    (rest : List Line) :
    cursor.readLines n (comments.map Line.ofChars ++ rest) =
      cursor.readLines (n + comments.length) rest := by
  induction comments generalizing n with
  | nil => rfl
  | cons line others ih =>
    obtain ⟨hline, hothers⟩ := List.forall_mem_cons.1 h
    rw [List.map_cons, List.cons_append, Line.ofChars_of_isComment hline, readLines]
    change cursor.readLines (n + 1) _ = _
    rw [ih hothers, List.length_cons, Nat.add_assoc, Nat.add_comm 1]

/-- Comments move the line of a failure and nothing else. The induction is on the lines, over the
comments that are still to come. -/
theorem readLines_withComments {comments : Nat → List (List Char)}
    (h : ∀ i, ∀ line ∈ comments i, Line.isComment line = true) (cursor : Cursor) (n : Nat)
    (lines : List (List Char)) :
    cursor.readLines n ((withComments comments lines).map Line.ofChars) =
      (cursor.readLines 0 (lines.map Line.ofChars)).mapError fun fault =>
        (n + fault.1 + commentsBefore comments (fault.1 + 1), fault.2) := by
  induction lines generalizing cursor comments n with
  | nil =>
    have hcomments := readLines_comments (h 0) cursor n []
    rw [List.append_nil] at hcomments
    rw [withComments, hcomments]
    rfl
  | cons line rest ih =>
    rw [withComments, List.map_append, List.map_cons, List.map_cons, readLines_comments (h 0),
      readLines, readLines]
    cases cursor.read (Line.ofChars line) with
    | error error => simp [Except.mapError, commentsBefore]
    | ok next =>
      simp only [ih (fun i => h (i + 1)), readLines_eq_mapError next (0 + 1)]
      cases next.readLines 0 (rest.map Line.ofChars) with
      | error fault =>
        simp only [Except.mapError, Nat.zero_add, Nat.add_comm 1, commentsBefore_succ comments]
        congr 2
        omega
      | ok after => rfl

end Cursor

theorem linesOf_of_commented {comments : Nat → List (List Char)} {text other : String}
    (h : Commented comments text other) :
    linesOf other = (withComments comments (lines text.toList)).map Line.ofChars := by
  have hlines := congrArg (List.map Line.ofChars) h.lines_eq
  rwa [Line.map_ofChars_trimEnd, Line.map_ofChars_trimEnd] at hlines

theorem parse_of_commented {comments : Nat → List (List Char)} {text other : String}
    (h : Commented comments text other) (origin : String) :
    parse other origin = (parse text origin).mapError (moved comments) := by
  have hmoved := Cursor.readLines_withComments h.isComment {} 1 (lines text.toList)
  have hstart := Cursor.readLines_eq_mapError {} 1 (linesOf text)
  rw [parse_eq_parseLines, parse_eq_parseLines, linesOf_of_commented h, parseLines, parseLines,
    hmoved, hstart, linesOf]
  cases Cursor.readLines 0 {} ((lines text.toList).map Line.ofChars) with
  | ok cursor => rfl
  | error fault => simp [Except.mapError, moved, Nat.add_comm]

/-- Returns before line feeds and blanks at the ends of lines do not matter; comments, wherever they
stand, move the line that a fault tells, and nothing else. -/
theorem parse_layout (text origin : String) :
    parse (withReturns text) origin = parse text origin ∧
    (∀ other, SameLines text other → parse other origin = parse text origin) ∧
    ∀ comments other, Commented comments text other →
      parse other origin = (parse text origin).mapError (moved comments) :=
  ⟨parse_of_sameLines (sameLines_withReturns text) origin,
    fun _ h => parse_of_sameLines h origin, fun _ _ h => parse_of_commented h origin⟩

/-- A value behind blank lines, and a header without a name. -/
def sparse : String := "[A]\nk:\n  1\n\n  2\n[ ]"

def annotated : String :=
  "; A\n[A]\nk:\n  # k\r\n  1 \n\n ; two\n# more\n  2\n[ ]\t\n# end"

def annotations : Nat → List (List Char)
  | 0 => ["; A".toList]
  | 2 => ["  # k".toList]
  | 4 => [" ; two".toList, "# more".toList]
  | 6 => ["# end".toList]
  | _ => []

theorem parse_layout_annotated :
    Commented annotations sparse annotated ∧
      parse (withReturns sparse) "source" =
        .error (.invalidSyntax "source" 6 "empty section header") ∧
      parse annotated "source" = .error (.invalidSyntax "source" 10 "empty section header") := by
  have hfault : parse sparse "source" =
      .error (.invalidSyntax "source" 6 "empty section header") := rfl
  have hcommented : Commented annotations sparse annotated := by
    refine ⟨fun i line hline => ?_, rfl⟩
    unfold annotations at hline
    split at hline <;> revert line <;> decide
  obtain ⟨hreturns, -, hcomments⟩ := parse_layout sparse "source"
  refine ⟨hcommented, hreturns.trans hfault, ?_⟩
  rw [hcomments _ _ hcommented, hfault]
  rfl

end Document

end IniCompose
