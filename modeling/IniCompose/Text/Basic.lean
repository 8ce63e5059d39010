/-!
# Texts

Texts are read as lists of characters. Blank characters separate words and indent lines, and
trimming drops them at both ends of a text. A text is cut at a character that satisfies a test, or
at its line feeds into lines.
-/
namespace IniCompose.Text

/-! ## Blank characters -/

/-- The property `White_Space` as ranges of code points, ends included; it is wider than the ASCII
blanks of `Char.isWhitespace`. -/
def blankRanges : List (Nat × Nat) :=
  [(0x0009, 0x000D), (0x0020, 0x0020), (0x0085, 0x0085), (0x00A0, 0x00A0), (0x1680, 0x1680),
   (0x2000, 0x200A), (0x2028, 0x2029), (0x202F, 0x202F), (0x205F, 0x205F), (0x3000, 0x3000)]

def isBlank (c : Char) : Bool :=
  blankRanges.any fun range => range.1 ≤ c.toNat && c.toNat ≤ range.2

@[simp] theorem isBlank_newline : isBlank '\n' = true := by decide
@[simp] theorem isBlank_return : isBlank '\r' = true := by decide
@[simp] theorem isBlank_space : isBlank ' ' = true := by decide

/-! ## Trimming -/

def trimStart (text : List Char) : List Char := text.dropWhile isBlank

def trimEnd (text : List Char) : List Char := (text.reverse.dropWhile isBlank).reverse

def trim (text : List Char) : List Char := trimEnd (trimStart text)

@[simp] theorem trimStart_nil : trimStart [] = [] := rfl
@[simp] theorem trimEnd_nil : trimEnd [] = [] := rfl
@[simp] theorem trim_nil : trim [] = [] := rfl

theorem trimStart_cons_of_blank {c : Char} (h : isBlank c = true) (text : List Char) :
    trimStart (c :: text) = trimStart text := by simp [trimStart, h]

theorem trimStart_cons_of_not_blank {c : Char} (h : isBlank c = false) (text : List Char) :
    trimStart (c :: text) = c :: text := by simp [trimStart, h]

theorem trimEnd_concat_of_blank {c : Char} (h : isBlank c = true) (text : List Char) :
    trimEnd (text ++ [c]) = trimEnd text := by simp [trimEnd, h]

/-! ### Trimmed texts

A text is trimmed if trimming leaves it alone, that is if neither its first nor its last character
is blank. Blanks around a trimmed text are all that trimming takes away. -/

/-- Trimming leaves the text alone. -/
def Trimmed (text : List Char) : Prop := trim text = text

instance (text : List Char) : Decidable (Trimmed text) :=
  inferInstanceAs (Decidable (trim text = text))

/-- The first and the last character of a text are not blank. -/
def Bounded (text : List Char) : Prop :=
  (∀ c ∈ text.head?, isBlank c = false) ∧ ∀ c ∈ text.getLast?, isBlank c = false

theorem trimStart_eq_self_iff {text : List Char} :
    trimStart text = text ↔ ∀ c ∈ text.head?, isBlank c = false := by
  cases text with
  | nil => simp
  | cons c rest =>
    cases h : isBlank c with
    | true =>
      rw [trimStart_cons_of_blank h]
      have hlength : (trimStart rest).length ≤ rest.length :=
        (List.dropWhile_sublist _).length_le
      constructor
      · intro heq
        have := congrArg List.length heq
        simp only [List.length_cons] at this
        omega
      · intro hbound
        simp [h] at hbound
    | false => simp [trimStart_cons_of_not_blank h, h]

theorem trimEnd_eq_reverse (text : List Char) :
    trimEnd text = (trimStart text.reverse).reverse := rfl

theorem trimEnd_eq_self_iff {text : List Char} :
    trimEnd text = text ↔ ∀ c ∈ text.getLast?, isBlank c = false := by
  rw [trimEnd_eq_reverse, List.reverse_eq_iff, trimStart_eq_self_iff, List.head?_reverse]

theorem trimmed_of_bounded {text : List Char} (h : Bounded text) : Trimmed text := by
  unfold Trimmed trim
  rw [trimStart_eq_self_iff.2 h.1, trimEnd_eq_self_iff.2 h.2]

theorem head?_trimStart (text : List Char) : ∀ c ∈ (trimStart text).head?, isBlank c = false := by
  intro c hc
  have hnot := List.head?_dropWhile_not isBlank text
  unfold trimStart at hc
  rw [Option.mem_def.1 hc] at hnot
  simpa using hnot

theorem getLast?_trimEnd (text : List Char) : ∀ c ∈ (trimEnd text).getLast?, isBlank c = false := by
  rw [trimEnd_eq_reverse, List.getLast?_reverse]
  exact head?_trimStart _

/-- Trimming at the end keeps the first character, if anything is left. -/
theorem head?_trimEnd {text : List Char} {c : Char} (h : c ∈ (trimEnd text).head?) :
    c ∈ text.head? := by
  have hprefix : trimEnd text <+: text := by
    rw [trimEnd_eq_reverse, ← List.reverse_suffix, List.reverse_reverse]
    exact List.dropWhile_suffix _
  obtain ⟨later, hlater⟩ := hprefix
  rw [← hlater, List.head?_append]
  simp [Option.mem_def.1 h]

theorem bounded_trim (text : List Char) : Bounded (trim text) :=
  ⟨fun c hc => head?_trimStart text c (head?_trimEnd hc), getLast?_trimEnd _⟩

theorem trimmed_iff_bounded {text : List Char} : Trimmed text ↔ Bounded text :=
  ⟨fun h => h ▸ bounded_trim text, trimmed_of_bounded⟩

@[simp] theorem trimmed_trim (text : List Char) : Trimmed (trim text) :=
  trimmed_of_bounded (bounded_trim text)

theorem mem_of_mem_trim {text : List Char} {c : Char} (h : c ∈ trim text) : c ∈ text := by
  have hend : c ∈ trimStart text := by
    unfold trim at h
    rw [trimEnd_eq_reverse, List.mem_reverse] at h
    simpa using (List.dropWhile_sublist _).subset h
  exact (List.dropWhile_sublist _).subset hend

/-- Blanks before a trimmed text are trimmed away. -/
theorem trim_append_of_blank {blanks text : List Char} (hblanks : ∀ c ∈ blanks, isBlank c = true)
    (h : Trimmed text) : trim (blanks ++ text) = text := by
  induction blanks with
  | nil => exact h
  | cons c rest ih =>
    have hc : isBlank c = true := hblanks c (by simp)
    unfold trim at ih ⊢
    rw [List.cons_append, trimStart_cons_of_blank hc]
    exact ih fun d hd => hblanks d (by simp [hd])

/-- A blank after a text is trimmed away. -/
theorem trim_concat_of_blank {c : Char} (h : isBlank c = true) (text : List Char) :
    trim (text ++ [c]) = trim text := by
  induction text with
  | nil => simp [trim, trimStart_cons_of_blank h]
  | cons d rest ih =>
    cases hd : isBlank d with
    | true =>
      unfold trim at ih ⊢
      rw [List.cons_append, trimStart_cons_of_blank hd, trimStart_cons_of_blank hd]
      exact ih
    | false =>
      rw [trim, trim, List.cons_append, trimStart_cons_of_not_blank hd,
        trimStart_cons_of_not_blank hd, ← List.cons_append, trimEnd_concat_of_blank h]

theorem trimEnd_cons (c : Char) (text : List Char) :
    trimEnd (c :: text) = if trimEnd text = [] then trimEnd [c] else c :: trimEnd text := by
  rw [trimEnd, trimEnd, trimEnd, List.reverse_cons, List.dropWhile_append]
  by_cases h : text.reverse.dropWhile isBlank = []
  · rw [h]
    rfl
  · rw [if_neg (by simpa using h), if_neg (by simpa using h), List.reverse_append]
    rfl

/-- What is trimmed away at the end is blank. -/
theorem exists_trimEnd_append (text : List Char) :
    ∃ blanks, (∀ c ∈ blanks, isBlank c = true) ∧ text = trimEnd text ++ blanks := by
  refine ⟨(text.reverse.takeWhile isBlank).reverse, fun c hc => ?_, ?_⟩
  · exact List.all_eq_true.1 List.all_takeWhile c (List.mem_reverse.1 hc)
  · rw [trimEnd, ← List.reverse_append, List.takeWhile_append_dropWhile, List.reverse_reverse]

/-- Trimming keeps the first character that is not blank. -/
theorem head?_trim (text : List Char) : (trim text).head? = text.find? (!isBlank ·) := by
  induction text with
  | nil => rfl
  | cons c rest ih =>
    cases hc : isBlank c with
    | true => simpa [trim, trimStart_cons_of_blank hc, hc] using ih
    | false =>
      obtain ⟨blanks, hblanks, htext⟩ := exists_trimEnd_append (c :: rest)
      have hne : trimEnd (c :: rest) ≠ [] := by
        intro hnil
        have hmem : c ∈ blanks := by
          rw [hnil, List.nil_append] at htext
          exact htext ▸ List.mem_cons_self
        simp [hblanks c hmem] at hc
      obtain ⟨d, later, hd⟩ := List.exists_cons_of_ne_nil hne
      have hhead := head?_trimEnd (show d ∈ (trimEnd (c :: rest)).head? by simp [hd])
      rw [trim, trimStart_cons_of_not_blank hc, hd]
      simpa [hc, eq_comm] using hhead

theorem trim_eq_nil_iff {text : List Char} : trim text = [] ↔ ∀ c ∈ text, isBlank c = true := by
  rw [← List.head?_eq_none_iff, head?_trim, List.find?_eq_none]
  simp

/-- Two trimmed texts that are not empty, with anything between them, make a trimmed text. -/
theorem Trimmed.append {first last : List Char} (hfirst : Trimmed first) (hlast : Trimmed last)
    (hne : first ≠ []) (hne' : last ≠ []) (middle : List Char) :
    Trimmed (first ++ middle ++ last) := by
  have hhead := (trimmed_iff_bounded.1 hfirst).1
  have hend := (trimmed_iff_bounded.1 hlast).2
  obtain ⟨c, first, rfl⟩ := List.exists_cons_of_ne_nil hne
  refine trimmed_of_bounded ⟨by simpa using hhead, ?_⟩
  intro d hd
  rw [List.getLast?_append, List.getLast?_eq_some_getLast hne'] at hd
  exact hend d (by simpa [List.getLast?_eq_some_getLast hne'] using hd)

/-! ## Cutting at a character

The character itself belongs to neither part. -/

/-- The parts around the first character that satisfies `p`. -/
def cutFirst? (p : Char → Bool) : List Char → Option (List Char × List Char)
  | [] => none
  | c :: rest =>
    if p c then some ([], rest)
    else (cutFirst? p rest).map fun parts => (c :: parts.1, parts.2)

/-- The parts around the last character that satisfies `p`. -/
def cutLast? (p : Char → Bool) (text : List Char) : Option (List Char × List Char) :=
  (cutFirst? p text.reverse).map fun parts => (parts.2.reverse, parts.1.reverse)

theorem cutFirst?_eq_none_iff {p : Char → Bool} {text : List Char} :
    cutFirst? p text = none ↔ ∀ c ∈ text, p c = false := by
  induction text with
  | nil => simp [cutFirst?]
  | cons c rest ih => by_cases h : p c <;> simp [cutFirst?, h, ih]

theorem cutFirst?_eq_some_iff {p : Char → Bool} {text before after : List Char} :
    cutFirst? p text = some (before, after) ↔
      ∃ c, p c = true ∧ text = before ++ c :: after ∧ ∀ d ∈ before, p d = false := by
  induction text generalizing before with
  | nil => simp [cutFirst?]
  | cons c rest ih =>
    by_cases h : p c
    · simp only [cutFirst?, h, if_true, Option.some.injEq, Prod.mk.injEq]
      constructor
      · rintro ⟨rfl, rfl⟩; exact ⟨c, h, rfl, by simp⟩
      · rintro ⟨d, hd, htext, hbefore⟩
        cases before with
        | nil => simp_all
        | cons b before => simp_all
    · simp only [cutFirst?, h, Bool.false_eq_true, if_false, Option.map_eq_some_iff]
      constructor
      · rintro ⟨⟨b, a⟩, hcut, heq⟩
        obtain ⟨rfl, rfl⟩ := Prod.mk.inj heq
        obtain ⟨d, hd, rfl, hb⟩ := ih.1 hcut
        exact ⟨d, hd, by simp, by simpa [h] using hb⟩
      · rintro ⟨d, hd, htext, hbefore⟩
        cases before with
        | nil => simp_all
        | cons b before =>
          simp only [List.cons_append, List.cons.injEq] at htext
          obtain ⟨rfl, rfl⟩ := htext
          exact ⟨(before, after), ih.2 ⟨d, hd, rfl, fun e he => hbefore e (by simp [he])⟩, rfl⟩

theorem cutLast?_eq_none_iff {p : Char → Bool} {text : List Char} :
    cutLast? p text = none ↔ ∀ c ∈ text, p c = false := by
  simp [cutLast?, cutFirst?_eq_none_iff]

theorem cutLast?_eq_some_iff {p : Char → Bool} {text before after : List Char} :
    cutLast? p text = some (before, after) ↔
      ∃ c, p c = true ∧ text = before ++ c :: after ∧ ∀ d ∈ after, p d = false := by
  have hreverse : cutLast? p text = some (before, after) ↔
      cutFirst? p text.reverse = some (after.reverse, before.reverse) := by
    rw [cutLast?, Option.map_eq_some_iff]
    constructor
    · rintro ⟨⟨later, earlier⟩, hcut, heq⟩
      obtain ⟨rfl, rfl⟩ := Prod.mk.inj heq
      simpa using hcut
    · exact fun hcut => ⟨_, hcut, by simp⟩
  simp [hreverse, cutFirst?_eq_some_iff, List.reverse_eq_iff]

/-! ## Lines

A line ends at a line feed, and one carriage return just before the line feed belongs to the line
end. What follows the last line feed is a line of its own unless it is empty, and there a carriage
return is kept. -/

def dropReturn (line : List Char) : List Char :=
  if line.getLast? = some '\r' then line.dropLast else line

/-- Reads the pieces between line feeds as lines; only the last piece has no line feed after it. -/
def linesOfPieces : List (List Char) → List (List Char)
  | [] => []
  | [rest] => if rest.isEmpty then [] else [rest]
  | line :: piece :: pieces => dropReturn line :: linesOfPieces (piece :: pieces)

def lines (text : List Char) : List (List Char) := linesOfPieces (text.splitOn '\n')

@[simp] theorem lines_nil : lines [] = [] := rfl

theorem trimEnd_dropReturn (line : List Char) : trimEnd (dropReturn line) = trimEnd line := by
  unfold dropReturn
  split
  · next h =>
    obtain ⟨start, rfl⟩ := List.getLast?_eq_some_iff.1 h
    rw [List.dropLast_concat, trimEnd_concat_of_blank isBlank_return]
  · rfl

end IniCompose.Text
