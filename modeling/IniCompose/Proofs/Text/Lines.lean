import IniCompose.Text.Basic

/-!
# Lines that are written and read

Lines that are written one below the other are read back one by one, and a text that is made of
lines has just these between its line feeds.
-/
namespace IniCompose.Text

/-- A line as it stands in a text: without line feed, and not ending in a return that would be taken
for part of the line end. -/
structure Plain (line : List Char) : Prop where
  newline : '\n' ∉ line
  return_ : line.getLast? ≠ some '\r'

/-- Lines one below the other, each with a line feed at its end. -/
def unlines (lines : List (List Char)) : List Char := lines.flatMap (· ++ ['\n'])

@[simp] theorem unlines_nil : unlines [] = [] := rfl

@[simp] theorem unlines_cons (line : List Char) (rest : List (List Char)) :
    unlines (line :: rest) = line ++ '\n' :: unlines rest := by
  simp [unlines]

@[simp] theorem unlines_append (first second : List (List Char)) :
    unlines (first ++ second) = unlines first ++ unlines second := by
  simp [unlines]

theorem lines_append_newline {line : List Char} (h : Plain line) (rest : List Char) :
    lines (line ++ '\n' :: rest) = line :: lines rest := by
  obtain ⟨piece, pieces, hpieces⟩ := List.exists_cons_of_ne_nil (List.splitOn_ne_nil '\n' rest)
  have hkept : dropReturn line = line := if_neg h.return_
  rw [lines, lines, List.splitOn_append_cons_self_of_not_mem h.newline, hpieces, linesOfPieces,
    hkept]

/-- Plain lines are read as they are written. -/
theorem lines_unlines {ls : List (List Char)} (h : ∀ line ∈ ls, Plain line) :
    lines (unlines ls) = ls := by
  induction ls with
  | nil => rfl
  | cons line rest ih =>
    rw [unlines_cons, lines_append_newline (h line (by simp)),
      ih fun other hother => h other (by simp [hother])]

theorem length_splitOn_newline (text : List Char) :
    (text.splitOn '\n').length = text.count '\n' + 1 := by
  induction text with
  | nil => rfl
  | cons c rest ih =>
    rw [List.splitOn_cons_eq_if_modifyHead, List.count_cons]
    split <;> simp [ih]

theorem newline_notMem_of_mem_splitOn {text piece : List Char} (h : piece ∈ text.splitOn '\n') :
    '\n' ∉ piece := by
  induction text generalizing piece with
  | nil => simp_all
  | cons c rest ih =>
    obtain ⟨first, others, hrest⟩ := List.exists_cons_of_ne_nil (List.splitOn_ne_nil '\n' rest)
    rw [List.splitOn_cons_eq_if_modifyHead, hrest] at h
    rw [hrest] at ih
    have hfirst := ih List.mem_cons_self
    split at h
    · rcases List.mem_cons.1 h with rfl | h
      · simp
      · exact ih h
    · next hc =>
      have hne : ¬ '\n' = c := fun e => hc (by simp [← e])
      rcases List.mem_cons.1 h with rfl | h
      · simpa [hne] using hfirst
      · exact ih (List.mem_cons_of_mem _ h)

/-- Only the last piece is not followed by a line feed. -/
theorem linesOfPieces_append (first : List (List Char)) {later : List (List Char)}
    (h : later ≠ []) :
    linesOfPieces (first ++ later) = first.map dropReturn ++ linesOfPieces later := by
  induction first with
  | nil => rfl
  | cons piece rest ih =>
    obtain ⟨next, others, hnext⟩ :=
      List.exists_cons_of_ne_nil (show rest ++ later ≠ [] by simp [h])
    rw [List.cons_append, hnext, linesOfPieces, ← hnext, ih]
    rfl

theorem lines_append_newline_cons (first later : List Char) :
    lines (first ++ '\n' :: later) = (first.splitOn '\n').map dropReturn ++ lines later := by
  rw [lines, List.splitOn_append_cons_self]
  exact linesOfPieces_append _ (List.splitOn_ne_nil '\n' later)

theorem mem_of_mem_dropReturn {line : List Char} {c : Char} (h : c ∈ dropReturn line) :
    c ∈ line := by
  unfold dropReturn at h
  split at h
  · exact List.dropLast_subset _ h
  · exact h

/-- A line of a text is a piece between line feeds, but for a return at its end. -/
theorem newline_notMem_of_mem_lines {text line : List Char} (h : line ∈ lines text) :
    '\n' ∉ line := by
  suffices ∀ pieces : List (List Char), (∀ piece ∈ pieces, '\n' ∉ piece) →
      ∀ line ∈ linesOfPieces pieces, '\n' ∉ line from
    this _ (fun _ => newline_notMem_of_mem_splitOn) line h
  intro pieces hpieces
  induction pieces using linesOfPieces.induct with
  | case1 => simp [linesOfPieces]
  | case2 rest hempty => simp [linesOfPieces, hempty]
  | case3 rest hempty => simpa [linesOfPieces, hempty] using hpieces
  | case4 first piece pieces ih =>
    intro line hline
    rcases List.mem_cons.1 hline with rfl | hline
    · exact fun hmem => hpieces first (by simp) (mem_of_mem_dropReturn hmem)
    · exact ih (fun other hother => hpieces other (by simp [hother])) line hline

/-- Texts without line feeds, each with a line feed at its end, are read but for a return at their
ends. -/
theorem lines_unlines_append {pieces : List (List Char)} (h : ∀ piece ∈ pieces, '\n' ∉ piece)
    (later : List Char) :
    lines (unlines pieces ++ later) = pieces.map dropReturn ++ lines later := by
  induction pieces with
  | nil => rfl
  | cons piece rest ih =>
    have hrest := ih fun other hother => h other (by simp [hother])
    rw [unlines_cons, List.append_assoc, List.cons_append, lines_append_newline_cons,
      List.splitOn_eq_singleton (h piece (by simp)), hrest]
    rfl

theorem length_linesOfPieces_le (pieces : List (List Char)) :
    (linesOfPieces pieces).length ≤ pieces.length := by
  fun_induction linesOfPieces pieces <;> grind

/-- Where returns at the ends of lines do not matter, the lines are the pieces between line feeds,
but for an empty piece at the end. -/
theorem map_linesOfPieces {β : Type} {f : List Char → β}
    (hreturn : ∀ line, f (dropReturn line) = f line) {pieces : List (List Char)} (h : pieces ≠ []) :
    pieces.map f = (linesOfPieces pieces).map f ∨
      pieces.map f = (linesOfPieces pieces).map f ++ [f []] := by
  fun_induction linesOfPieces pieces with
  | case1 => exact absurd rfl h
  | case2 rest hempty =>
    obtain rfl : rest = [] := by simpa using hempty
    exact .inr rfl
  | case3 rest hempty => exact .inl rfl
  | case4 line piece pieces ih =>
    rw [List.map_cons, List.map_cons (l := linesOfPieces _), hreturn]
    refine (ih (by simp)).imp (fun hrest => ?_) fun hrest => ?_
    · exact congrArg (_ :: ·) hrest
    · exact congrArg (_ :: ·) hrest

/-- The first lines of a text, as they stand there with their line ends. -/
def firstLines (text : List Char) (n : Nat) : List Char := unlines ((text.splitOn '\n').take n)

/-- Unless they are all, the first lines of a text are read on their own as they are in the text. -/
theorem lines_firstLines {text : List Char} {n : Nat} (h : n < (lines text).length) :
    lines (firstLines text n) = (lines text).take n := by
  have hn : n < (text.splitOn '\n').length := Nat.lt_of_lt_of_le h (length_linesOfPieces_le _)
  have hlater : (text.splitOn '\n').drop n ≠ [] := by simpa using hn
  have htext : lines text = ((text.splitOn '\n').take n).map dropReturn ++
      linesOfPieces ((text.splitOn '\n').drop n) := by
    rw [← linesOfPieces_append _ hlater, List.take_append_drop]
    rfl
  have hlength : (((text.splitOn '\n').take n).map dropReturn).length = n := by
    rw [List.length_map, List.length_take_of_le (Nat.le_of_lt hn)]
  have hfirst := lines_unlines_append (fun piece (hpiece : piece ∈ (text.splitOn '\n').take n) =>
    newline_notMem_of_mem_splitOn (List.mem_of_mem_take hpiece)) []
  rw [firstLines, htext, List.take_left' hlength]
  simpa using hfirst

/-! ## Lines within a value -/

/-- A first line and further ones, with line feeds between them. -/
def joinLines (first : List Char) (rest : List (List Char)) : List Char :=
  first ++ rest.flatMap ('\n' :: ·)

@[simp] theorem joinLines_nil (first : List Char) : joinLines first [] = first := by
  simp [joinLines]

theorem joinLines_cons (first line : List Char) (rest : List (List Char)) :
    joinLines first (line :: rest) = first ++ '\n' :: joinLines line rest := by
  simp [joinLines]

theorem joinLines_append (first : List Char) (rest later : List (List Char)) :
    joinLines first (rest ++ later) = joinLines first rest ++ later.flatMap ('\n' :: ·) := by
  simp [joinLines]

theorem splitOn_joinLines {first : List Char} {rest : List (List Char)} (hfirst : '\n' ∉ first)
    (hrest : ∀ line ∈ rest, '\n' ∉ line) :
    (joinLines first rest).splitOn '\n' = first :: rest := by
  induction rest generalizing first with
  | nil => rw [joinLines_nil, List.splitOn_eq_singleton hfirst]
  | cons line rest ih =>
    rw [joinLines_cons, List.splitOn_append_cons_self_of_not_mem hfirst,
      ih (hrest line (by simp)) fun other hother => hrest other (by simp [hother])]

end IniCompose.Text
