import IniCompose.Proofs.Document.Assembled
import IniCompose.Proofs.Registry.Resolution

/-!
# Importing sections by name

A section is imported by a line with `use` and its name, in quotation marks of either kind or, if
the name neither starts nor ends with one, without. Whatever other marks, brackets or blanks there
are in the name, the key under which the line is stored is resolved to the name as it is; only a
delimiter would end the key. A mark whose partner is missing at the other end is an error.
-/
namespace IniCompose

open Text

variable {mark : Char} {text inner : List Char}

/-! ## Quotation marks -/

def IsMark (c : Char) : Prop := c = '"' ∨ c = '\''

/-- The mark stands at one end of the text at least, without its partner at the other end. A lone
mark has no partner. -/
def Unpartnered (mark : Char) (text : List Char) : Prop :=
  (text.head? = some mark ∨ text.getLast? = some mark) ∧ ∀ inner, text ≠ mark :: inner ++ [mark]

/-- The mark stands at neither end of the text. -/
def Unmarked (mark : Char) (text : List Char) : Prop :=
  text.head? ≠ some mark ∧ text.getLast? ≠ some mark

theorem enclosed_iff :
    (text.head? = some mark ∧ 1 < text.length ∧ text.getLast? = some mark) ↔
      ∃ inner, text = mark :: inner ++ [mark] := by
  constructor
  · rintro ⟨hhead, hlength, hlast⟩
    obtain ⟨start, rfl⟩ := List.getLast?_eq_some_iff.1 hlast
    cases start with
    | nil => simp at hlength
    | cons c inner =>
      obtain rfl : c = mark := by simpa using hhead
      exact ⟨inner, rfl⟩
  · rintro ⟨inner, rfl⟩
    exact ⟨rfl, by simp, List.getLast?_concat⟩

instance (mark : Char) (text : List Char) : Decidable (Unpartnered mark text) :=
  decidable_of_iff ((text.head? = some mark ∨ text.getLast? = some mark) ∧
      ¬ (text.head? = some mark ∧ 1 < text.length ∧ text.getLast? = some mark)) <| by
    rw [enclosed_iff, not_exists, Unpartnered]

theorem Unmarked.not_unpartnered (h : Unmarked mark text) : ¬ Unpartnered mark text :=
  fun hunpartnered => hunpartnered.1.elim h.1 h.2

theorem unmarked_enclosed {other : Char} (h : other ≠ mark) (inner : List Char) :
    Unmarked mark (other :: inner ++ [other]) := by
  constructor
  · simpa using h
  · rw [List.getLast?_concat]
    simpa using h

/-- A text between two equal marks has no mark without partner, of either kind. -/
theorem not_unpartnered_enclosed (mark other : Char) (inner : List Char) :
    ¬ Unpartnered mark (other :: inner ++ [other]) := by
  by_cases h : other = mark
  · subst h
    exact fun hunpartnered => hunpartnered.2 inner rfl
  · exact (unmarked_enclosed h inner).not_unpartnered

namespace Quotation

theorem ofChars_enclosed (mark : Char) (inner : List Char) :
    ofChars mark (mark :: inner ++ [mark]) = .quoted (trim inner) := by
  have henclosed := enclosed_iff.2 ⟨inner, Eq.refl (mark :: inner ++ [mark])⟩
  unfold ofChars
  rw [if_pos henclosed]
  simp

theorem ofChars_of_unpartnered (h : Unpartnered mark text) : ofChars mark text = .unbalanced := by
  obtain ⟨hend, hpartner⟩ := h
  have hnot : ¬ (text.head? = some mark ∧ 1 < text.length ∧ text.getLast? = some mark) :=
    fun henclosed => (enclosed_iff.1 henclosed).elim hpartner
  have hmarked : text.head? = some mark ∨ 1 < text.length ∧ text.getLast? = some mark := by
    rcases hend with hhead | hlast
    · exact .inl hhead
    · obtain ⟨start, rfl⟩ := List.getLast?_eq_some_iff.1 hlast
      cases start with
      | nil => exact .inl rfl
      | cons c rest => exact .inr ⟨by simp, hlast⟩
  unfold ofChars
  rw [if_neg hnot, if_pos hmarked]

theorem ofChars_of_unmarked (h : Unmarked mark text) : ofChars mark text = .plain := by
  simp [ofChars, h.1, h.2]

end Quotation

/-- How a text can stand to a kind of marks. -/
theorem enclosed_or_unpartnered_or_unmarked (mark : Char) (text : List Char) :
    (∃ inner, text = mark :: inner ++ [mark]) ∨ Unpartnered mark text ∨ Unmarked mark text := by
  by_cases henclosed : ∃ inner, text = mark :: inner ++ [mark]
  · exact .inl henclosed
  · by_cases hend : text.head? = some mark ∨ text.getLast? = some mark
    · exact .inr (.inl ⟨hend, not_exists.1 henclosed⟩)
    · exact .inr (.inr (not_or.1 hend))

theorem unquote_enclosed (hmark : IsMark mark) (inner : List Char) :
    unquote (mark :: inner ++ [mark]) = some (trim inner) := by
  unfold unquote
  rcases hmark with rfl | rfl
  · rw [Quotation.ofChars_enclosed]
  · have hplain : Unmarked '"' ('\'' :: inner ++ ['\'']) := unmarked_enclosed (by decide) inner
    rw [Quotation.ofChars_of_unmarked hplain, Quotation.ofChars_enclosed]

theorem unquote_unmarked (h : ∀ mark, IsMark mark → Unmarked mark text) :
    unquote text = some text := by
  have hplain : ∀ mark, IsMark mark → Quotation.ofChars mark text = .plain :=
    fun mark hmark => Quotation.ofChars_of_unmarked (h mark hmark)
  simp only [unquote, hplain '"' (.inl rfl), hplain '\'' (.inr rfl)]

theorem unquote_of_unpartnered (hmark : IsMark mark) (h : Unpartnered mark text) :
    unquote text = none := by
  unfold unquote
  rcases enclosed_or_unpartnered_or_unmarked '"' text with ⟨inner, rfl⟩ | hdouble | hplain
  · exact absurd h (not_unpartnered_enclosed mark '"' inner)
  · rw [Quotation.ofChars_of_unpartnered hdouble]
  · rcases hmark with rfl | rfl
    · exact absurd h hplain.not_unpartnered
    · rw [Quotation.ofChars_of_unmarked hplain, Quotation.ofChars_of_unpartnered h]

/-- A text is refused if and only if it has a mark without partner. -/
theorem unquote_eq_none_iff :
    unquote text = none ↔ ∃ mark, IsMark mark ∧ Unpartnered mark text := by
  refine ⟨fun hnone => ?_, fun ⟨mark, hmark, h⟩ => unquote_of_unpartnered hmark h⟩
  have hdouble : IsMark '"' := .inl rfl
  have hsingle : IsMark '\'' := .inr rfl
  rcases enclosed_or_unpartnered_or_unmarked '"' text with ⟨inner, rfl⟩ | h | hplain
  · cases hnone.symm.trans (unquote_enclosed hdouble inner)
  · exact ⟨_, hdouble, h⟩
  · rcases enclosed_or_unpartnered_or_unmarked '\'' text with ⟨inner, rfl⟩ | h | hplain'
    · cases hnone.symm.trans (unquote_enclosed hsingle inner)
    · exact ⟨_, hsingle, h⟩
    · have hunmarked : ∀ mark, IsMark mark → Unmarked mark text := by
        rintro mark (rfl | rfl)
        · exact hplain
        · exact hplain'
      cases hnone.symm.trans (unquote_unmarked hunmarked)

/-! ## The word of the operation -/

/-- The word is `use` in any case. -/
def IsUse (word : List Char) : Prop := word.map Char.toLower = "use".toList

theorem eq_or_toNat_add_of_toLower (c : Char) :
    c = c.toLower ∨ c.toNat + 32 = c.toLower.toNat := by
  unfold Char.toLower
  split
  · next hupper =>
    right
    have hmost : c.val.toNat ≤ 90 := hupper.2
    change c.val.toNat + 32 = (c.val + 32).toNat
    rw [UInt32.toNat_add]
    change _ = (c.val.toNat + 32) % 2 ^ 32
    omega
  · exact .inl rfl

theorem mem_of_toLower_mem {c : Char} (h : c.toLower ∈ "use".toList) : c ∈ "useUSE".toList := by
  rcases eq_or_toNat_add_of_toLower c with hlower | hupper
  · rw [← hlower] at h
    exact List.mem_append_left "USE".toList h
  · have hchar : c = Char.ofNat (c.toLower.toNat - 32) := by simp [← hupper]
    have hletters : c.toLower = 'u' ∨ c.toLower = 's' ∨ c.toLower = 'e' := by simpa using h
    rw [hchar]
    rcases hletters with h | h | h <;> rw [h] <;> decide

namespace IsUse

variable {word : List Char}

/-- What holds of the letters of `use` in either case holds of all that is in the word. -/
theorem holds (h : IsUse word) {p : Char → Bool} (hletters : "useUSE".toList.all p = true) :
    ∀ c ∈ word, p c = true := by
  intro c hc
  apply List.all_eq_true.1 hletters
  apply mem_of_toLower_mem
  rw [← h]
  exact List.mem_map_of_mem hc

theorem ne_nil (h : IsUse word) : word ≠ [] := by
  rintro rfl
  cases h

theorem isBlank_eq_false (h : IsUse word) : ∀ c ∈ word, isBlank c = false := by
  have hletters : "useUSE".toList.all (!isBlank ·) = true := by decide
  simpa using h.holds hletters

theorem isDelimiter_eq_false (h : IsUse word) : ∀ c ∈ word, Line.isDelimiter c = false := by
  have hletters : "useUSE".toList.all (!Line.isDelimiter ·) = true := by decide
  simpa using h.holds hletters

theorem trimmed (h : IsUse word) : Trimmed word :=
  trimmed_of_bounded ⟨fun c hc => h.isBlank_eq_false c (List.mem_of_mem_head? hc),
    fun c hc => h.isBlank_eq_false c (List.mem_of_mem_getLast? hc)⟩

/-- Among letters, the normal form of an operation is lower case. -/
theorem normalForm_eq (h : IsUse word) : Operation.normalForm (.ofList word) = "use" := by
  have hletters : "useUSE".toList.all Char.isAlphanum = true := by decide
  have hmap : word.map (fun c => if c.isAlphanum || c = '_' then c.toLower else '_') =
      word.map Char.toLower :=
    List.map_congr_left fun c hc => by simp [h.holds hletters c hc]
  rw [Operation.normalForm, String.toList_ofList, hmap, h]
  rfl

end IsUse

theorem takeWhile_append_blank {word : List Char} (h : ∀ c ∈ word, isBlank c = false) {b : Char}
    (hb : isBlank b = true) (later : List Char) :
    (word ++ b :: later).takeWhile (!isBlank ·) = word := by
  rw [List.takeWhile_append_of_pos (by simpa using h)]
  simp [hb]

theorem dropWhile_append_blank {word : List Char} (h : ∀ c ∈ word, isBlank c = false) {b : Char}
    (hb : isBlank b = true) (later : List Char) :
    (word ++ b :: later).dropWhile (!isBlank ·) = b :: later := by
  rw [List.dropWhile_append_of_pos (by simpa using h)]
  simp [hb]

/-! ## Keys with the operation -/

namespace Registry

variable {sectionName stored : String}

/-- The trimmed key behind a stored key. -/
def keyText (stored : String) : List Char := trim (StoredKey.split stored).1.toList

/-- What stands behind the first word of a stored key. -/
def argument (stored : String) : List Char := trim ((keyText stored).dropWhile (!isBlank ·))

/-- A text that starts with `use` is resolved to what quotation marks leave of the rest. -/
theorem resolveText_standard_of_isUse {key : List Char} (h : IsUse (key.takeWhile (!isBlank ·)))
    (suffix : Option String) :
    standard.resolveText key suffix =
      match unquote (trim (key.dropWhile (!isBlank ·))) with
      | none => .error .unbalancedQuote
      | some parameter =>
        .ok ⟨⟨some "use", .ofList parameter, suffix⟩, some importSection⟩ := by
  have hne : key ≠ [] := by
    rintro rfl
    exact h.ne_nil rfl
  unfold resolveText
  cases hunquote : unquote (trim (key.dropWhile (!isBlank ·))) <;>
    simp only [List.isEmpty_iff, hne, if_false, candidates_standard, h.normalForm_eq, if_true,
      hunquote]

theorem resolveKey_standard_of_isUse (h : IsUse (firstWord stored).toList) :
    standard.resolveKey sectionName stored =
      match unquote (argument stored) with
      | none => .error (.optionFormat sectionName (.ofList (keyText stored)) "unbalanced quote")
      | some parameter =>
        .ok ⟨⟨some "use", .ofList parameter, (StoredKey.split stored).2⟩, some importSection⟩ := by
  rw [firstWord, String.toList_ofList] at h
  have htext := resolveText_standard_of_isUse h (StoredKey.split stored).2
  unfold resolveKey argument keyText
  dsimp only
  rw [htext]
  cases unquote _ <;> rfl

end Registry

/-! ## Lines that import a section -/

theorem Line.isDelimiter_of_blank {c : Char} (h : isBlank c = true) : isDelimiter c = false := by
  refine Bool.eq_false_iff.2 fun hdelimiter => ?_
  have hcases : c = ':' ∨ c = '=' := by simpa [isDelimiter] using hdelimiter
  rcases hcases with rfl | rfl <;> cases h

/-- The ways to spell a name: between quotation marks, or as it is if no quotation mark stands at an
end of it. -/
inductive Spells (name : List Char) : List Char → Prop
  | quoted {mark : Char} : IsMark mark → Spells name (mark :: name ++ [mark])
  | plain : (∀ mark, IsMark mark → Unmarked mark name) → Spells name name

/-- The text of a line that imports the section with the name. -/
inductive ImportsByName (name : List Char) : List Char → Prop
  | spelled {word blanks spelling : List Char} :
    IsUse word → blanks ≠ [] → (∀ c ∈ blanks, isBlank c = true) → Spells name spelling →
    ImportsByName name (word ++ blanks ++ spelling)

namespace Spells

variable {name spelling : List Char}

theorem unquote_eq (h : Spells name spelling) (hname : Trimmed name) :
    unquote spelling = some name := by
  cases h with
  | quoted hmark => exact (unquote_enclosed hmark name).trans (congrArg some hname)
  | plain hplain => exact unquote_unmarked hplain

theorem trimmed (h : Spells name spelling) (hname : Trimmed name) : Trimmed spelling := by
  cases h with
  | @quoted mark hmark =>
    have hend : Trimmed [mark] := by rcases hmark with rfl | rfl <;> decide
    exact hend.append hend (by simp) (by simp) name
  | plain => exact hname

theorem ne_nil (h : Spells name spelling) (hname : name ≠ []) : spelling ≠ [] := by
  cases h with
  | quoted => simp
  | plain => exact hname

theorem isDelimiter_eq_false (h : Spells name spelling)
    (hname : ∀ c ∈ name, Line.isDelimiter c = false) {c : Char} (hc : c ∈ spelling) :
    Line.isDelimiter c = false := by
  cases h with
  | @quoted mark hmark =>
    have hmark : Line.isDelimiter mark = false := by rcases hmark with rfl | rfl <;> decide
    grind
  | plain => exact hname c hc

end Spells

namespace ImportsByName

variable {name line : List Char}

/-- The line is the key, since no delimiter ends it. -/
theorem optionKey_eq (h : ImportsByName name line)
    (hname : ∀ c ∈ name, Line.isDelimiter c = false) : Document.optionKey line = .ofList line := by
  have hnone : ∀ c ∈ line, Line.isDelimiter c = false := by
    intro c hc
    cases h with
    | spelled huse _ hblanks hspells =>
      rcases List.mem_append.1 hc with hc | hc
      · rcases List.mem_append.1 hc with hc | hc
        · exact huse.isDelimiter_eq_false c hc
        · exact Line.isDelimiter_of_blank (hblanks c hc)
      · exact hspells.isDelimiter_eq_false hname hc
  rw [Document.optionKey, Line.keyValue_eq_iff.2 (.inr ⟨hnone, rfl, rfl⟩)]

theorem trimmed (h : ImportsByName name line) (hname : Trimmed name) (hne : name ≠ []) :
    Trimmed line := by
  cases h with
  | @spelled word blanks _ huse _ _ hspells =>
    exact huse.trimmed.append (hspells.trimmed hname) huse.ne_nil (hspells.ne_nil hne) blanks

/-- The line behind a suffix is resolved to the name. -/
theorem resolveKey_eq (h : ImportsByName name line) (hname : Trimmed name) (hne : name ≠ [])
    {stored : String} {suffix : Option String}
    (hsplit : StoredKey.split stored = (.ofList line, suffix)) (sectionName : String) :
    Registry.standard.resolveKey sectionName stored =
      .ok ⟨⟨some "use", .ofList name, suffix⟩, some importSection⟩ := by
  have hkey : Registry.keyText stored = line := by
    rw [Registry.keyText, hsplit, String.toList_ofList]
    exact h.trimmed hname hne
  cases h with
  | @spelled word blanks spelling huse hblanks hblank hspells =>
    obtain ⟨b, rest, rfl⟩ := List.exists_cons_of_ne_nil hblanks
    have hb : isBlank b = true := hblank b List.mem_cons_self
    rw [List.append_assoc, List.cons_append] at hkey
    have hword : IsUse (Registry.firstWord stored).toList := by
      change IsUse (String.ofList ((Registry.keyText stored).takeWhile _)).toList
      rwa [String.toList_ofList, hkey, takeWhile_append_blank huse.isBlank_eq_false hb]
    have hargument : Registry.argument stored = spelling := by
      rw [Registry.argument, hkey, dropWhile_append_blank huse.isBlank_eq_false hb]
      exact trim_append_of_blank hblank (hspells.trimmed hname)
    rw [Registry.resolveKey_standard_of_isUse hword, hargument, hspells.unquote_eq hname, hsplit]

end ImportsByName

namespace Registry

/-- Every section whose name holds no delimiter can be imported by its name. A line that spells the
name is stored under a key that is resolved to the operation, the name as it is and, if there are
such lines before it in the section, the number of the line among them. A key with the operation is
refused if and only if a quotation mark at an end of its argument lacks its partner. -/
theorem resolves_spelled_name :
    (∀ (text origin : String) (document : Document), Document.parse text origin = .ok document →
      ∀ name : String, NormalName name → (∀ c ∈ name.toList, Line.isDelimiter c = false) →
      ∀ (before : List Role) (line : List Char) (after : List Role),
        Document.roles (Document.linesOf text) = before ++ .option line :: after →
        ImportsByName name.toList line →
        ∃ sectionName stored value,
          (Role.openSection before).map String.ofList = some sectionName ∧
          (document.optionsOf sectionName).entries[
            (Document.keysUnder sectionName before).length]? = some (stored, value) ∧
          let earlier := (Document.keysUnder sectionName before).count (.ofList line)
          standard.resolveKey sectionName stored =
            .ok ⟨⟨some "use", name, if earlier = 0 then none else some (earlier + 1).repr⟩,
              some importSection⟩) ∧
    ∀ sectionName stored : String, IsUse (firstWord stored).toList →
      (standard.resolveKey sectionName stored =
          .error (.optionFormat sectionName (.ofList (keyText stored)) "unbalanced quote") ↔
        ∃ mark, IsMark mark ∧ Unpartnered mark (argument stored)) := by
  refine ⟨?_, fun sectionName stored huse => ?_⟩
  · intro text origin document hparse name hname hdelimiter before line after hroles himports
    obtain ⟨sectionName, hopen, hstored⟩ := Document.exists_entries_eq hparse hroles
    have hkey := himports.optionKey_eq hdelimiter
    have hcolon : ':' ∉ (Document.optionKey line).toList := Document.colon_notMem_ofChars line
    rw [hkey] at hcolon
    have hsplit := StoredKey.split_nth hcolon
      ((Document.keysUnder sectionName before).count (.ofList line))
    have hne : name.toList ≠ [] := by simpa using hname.ne_empty
    have hresolved := himports.resolveKey_eq hname.trimmed hne hsplit sectionName
    rw [String.ofList_toList] at hresolved
    refine ⟨sectionName, _, _, hopen, hstored, ?_⟩
    rw [hkey]
    exact hresolved
  · rw [resolveKey_standard_of_isUse huse, ← unquote_eq_none_iff]
    cases unquote (argument stored) <;> simp

/-- A section with different marks at the ends of its name, imported twice, and without marks around
the name. -/
def marked : String := "[\"x']\nk = 1\n[site]\nUse\t'\"x''\nl = 2\nUse\t'\"x''\nuse \"x'\n"

/-- The second import has a suffix; the last line is refused. -/
theorem resolves_spelled_name_marked :
    ∃ document, Document.parse marked "source" = .ok document ∧
      (∃ stored value,
        (document.optionsOf "site").entries[2]? = some (stored, value) ∧
        standard.resolveKey "site" stored =
          .ok ⟨⟨some "use", "\"x'", some "2"⟩, some importSection⟩) ∧
      standard.resolveKey "site" "use \"x'" =
        .error (.optionFormat "site" "use \"x'" "unbalanced quote") := by
  have hparse : Document.parse marked "source" =
      .ok ⟨.ofList [("\"x'", .ofList [("k", "1")]),
        ("site", .ofList [("Use\t'\"x''", ""), ("l", "2"), ("Use\t'\"x'':2", ""),
          ("use \"x'", "")])]⟩ := by rfl
  have hroles : Document.roles (Document.linesOf marked) =
      [.header ['"', 'x', '\''], .option "k = 1".toList, .header "site".toList,
        .option "Use\t'\"x''".toList, .option "l = 2".toList] ++
      .option "Use\t'\"x''".toList :: [.option "use \"x'".toList] := by rfl
  have himports : ImportsByName "\"x'".toList
      ("Use".toList ++ ['\t'] ++ ('\'' :: "\"x'".toList ++ ['\''])) :=
    .spelled rfl (by simp) (List.forall_mem_singleton.2 rfl) (.quoted (.inr rfl))
  obtain ⟨hresolved, hrefused⟩ := resolves_spelled_name
  obtain ⟨sectionName, stored, value, hopen, hentry, hkey⟩ := hresolved marked "source" _ hparse
    "\"x'" ⟨by decide, by decide, by decide⟩ (by simp [Line.isDelimiter]) _ _ _ hroles himports
  obtain rfl : "site" = sectionName := Option.some.inj hopen
  have hunpartnered : Unpartnered '"' (argument "use \"x'") := by decide
  refine ⟨_, hparse, ⟨stored, value, hentry, hkey⟩, ?_⟩
  exact (hrefused "site" "use \"x'" rfl).2 ⟨'"', .inl rfl, hunpartnered⟩

end Registry

end IniCompose
