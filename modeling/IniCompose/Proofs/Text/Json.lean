import IniCompose.Proofs.Text.Lines
import IniCompose.Text.Quoted
import Mathlib.Data.List.Basic

/-!
# What JSON texts tell

A JSON string or object tells where it ends and what it was written from, whatever follows it and
however much a text that it was written from looks like JSON itself. It holds no control character.
-/
namespace IniCompose.Text

variable {α β : Type} {write : α → List Char} {a b : α}

/-! ## Texts that tell where they end -/

/-- Whatever follows it, what is written tells where it ends and what it was written from. -/
def SelfDelimiting (write : α → List Char) : Prop :=
  ∀ ⦃a b : α⦄ ⦃r s : List Char⦄, write a ++ r = write b ++ s → a = b ∧ r = s

/-- What can be read back from the start of a text delimits itself. -/
theorem selfDelimiting_of_read {read : List Char → Option (α × List Char)}
    (h : ∀ a rest, read (write a ++ rest) = some (a, rest)) : SelfDelimiting write := by
  intro a b r s heq
  have hread := h a r
  rw [heq, h b s] at hread
  obtain ⟨rfl, rfl⟩ := Prod.mk.inj (Option.some.inj hread)
  exact ⟨rfl, rfl⟩

theorem intercalate_cons (c : Char) (first : List Char) (rest : List (List Char)) :
    [c].intercalate (first :: rest) = first ++ rest.flatMap (c :: ·) := by
  induction rest generalizing first with
  | nil => simp
  | cons second rest ih => rw [List.intercalate_cons_cons, ih]; simp

namespace SelfDelimiting

theorem append {next : β → List Char} (h : SelfDelimiting write) (hnext : SelfDelimiting next) :
    SelfDelimiting fun both : α × β => write both.1 ++ next both.2 := by
  rintro ⟨a, a'⟩ ⟨b, b'⟩ r s heq
  simp only [List.append_assoc] at heq
  obtain ⟨rfl, hrest⟩ := h heq
  obtain ⟨rfl, rfl⟩ := hnext hrest
  exact ⟨rfl, rfl⟩

theorem cons (h : SelfDelimiting write) (c : Char) : SelfDelimiting fun a => c :: write a := by
  intro a b r s heq
  exact h (List.cons.inj heq).2

theorem append_text (h : SelfDelimiting write) (last : List Char) :
    SelfDelimiting fun a => write a ++ last := by
  intro a b r s heq
  rw [List.append_assoc, List.append_assoc] at heq
  obtain ⟨hab, hrest⟩ := h heq
  exact ⟨hab, List.append_cancel_left hrest⟩

/-- Texts one after the other, up to a character that none of them begins with. Induction on the
texts. -/
theorem flatMap (h : SelfDelimiting write) {stop : Char}
    (hstart : ∀ a, ∃ c rest, write a = c :: rest ∧ c ≠ stop) :
    SelfDelimiting fun as : List α => as.flatMap write ++ [stop] := by
  intro as
  induction as with
  | nil =>
    intro bs r s heq
    cases bs with
    | nil => exact ⟨rfl, by simpa using heq⟩
    | cons b bs =>
      obtain ⟨c, rest, hb, hne⟩ := hstart b
      simp [hb, hne.symm] at heq
  | cons a as ih =>
    intro bs r s heq
    cases bs with
    | nil =>
      obtain ⟨c, rest, ha, hne⟩ := hstart a
      simp [ha, hne] at heq
    | cons b bs =>
      simp only [List.flatMap_cons, List.append_assoc] at heq
      obtain ⟨rfl, hrest⟩ := h heq
      simp only [← List.append_assoc] at hrest
      obtain ⟨rfl, rfl⟩ := ih hrest
      exact ⟨rfl, rfl⟩

/-- Texts with a separator between them, up to a character that no text begins with. -/
theorem intercalate (h : SelfDelimiting write) {separator stop : Char} (hne : separator ≠ stop)
    (hstart : ∀ a, ∃ c rest, write a = c :: rest ∧ c ≠ stop) :
    SelfDelimiting fun as : List α => [separator].intercalate (as.map write) ++ [stop] := by
  have hrest := (h.cons separator).flatMap fun a => ⟨separator, write a, rfl, hne⟩
  have hwhole := h.append hrest
  intro as bs r s heq
  cases as with
  | nil =>
    cases bs with
    | nil => exact ⟨rfl, by simpa using heq⟩
    | cons b bs =>
      obtain ⟨c, rest, hb, hne⟩ := hstart b
      simp [intercalate_cons, hb, hne.symm] at heq
  | cons a as =>
    cases bs with
    | nil =>
      obtain ⟨c, rest, ha, hne⟩ := hstart a
      simp [intercalate_cons, ha, hne] at heq
    | cons b bs =>
      simp only [List.map_cons, intercalate_cons, List.flatMap_map] at heq
      have hpair := @hwhole (a, as) (b, bs) r s (by simpa using heq)
      grind

end SelfDelimiting

theorem eq_of_append_stop {first other r s : List Char} {stop : Char} (hfirst : stop ∉ first)
    (hother : stop ∉ other) (h : first ++ stop :: r = other ++ stop :: s) :
    first = other ∧ r = s := by
  induction first generalizing other with
  | nil => cases other <;> simp_all
  | cons c rest ih => cases other <;> grind

/-- Numbers in decimal, up to a character that is no digit. -/
theorem selfDelimiting_repr {stop : Char} (h : stop.isDigit = false) :
    SelfDelimiting fun n : Nat => n.repr.toList ++ [stop] := by
  have hdigits (n : Nat) : stop ∉ n.repr.toList := by
    intro hmem
    have hdigit : stop.isDigit :=
      Nat.isDigit_of_mem_toDigits (by decide) (by decide) (Nat.toList_repr ▸ hmem)
    simp [h] at hdigit
  intro m n r s heq
  simp only [List.append_assoc, List.singleton_append] at heq
  obtain ⟨hrepr, rfl⟩ := eq_of_append_stop (hdigits m) (hdigits n) heq
  rw [Nat.toList_repr, Nat.toList_repr] at hrepr
  refine ⟨?_, rfl⟩
  rw [← @Nat.ofDigitChars_ten_toDigits m, hrepr, Nat.ofDigitChars_ten_toDigits]

/-! ## Escapes -/

def hexValue (c : Char) : Nat :=
  if c.isDigit then c.toNat - '0'.toNat else c.toNat - 'a'.toNat + 10

theorem hexValue_digitChar : ∀ n < 16, hexValue (Nat.digitChar n) = n := by decide

/-- The character that an escape of two characters stands for. -/
def unescape (c : Char) : Char :=
  if c = 'n' then '\n' else if c = 't' then '\t' else if c = 'r' then '\r'
  else if c = 'b' then '\x08' else if c = 'f' then '\x0c' else c

/-- Reads a character of a JSON string. -/
def readChar : List Char → Option (Char × List Char)
  | '\\' :: 'u' :: '0' :: '0' :: high :: low :: rest =>
    some (Char.ofNat (16 * hexValue high + hexValue low), rest)
  | '\\' :: c :: rest => some (unescape c, rest)
  | c :: rest => some (c, rest)
  | [] => none

theorem eq_of_toNat_eq {c : Char} {n : Nat} (h : c.toNat = n) : c = Char.ofNat n := by
  rw [← h, Char.ofNat_toNat]

theorem readChar_jsonChar (c : Char) (rest : List Char) :
    readChar (jsonChar c ++ rest) = some (c, rest) := by
  unfold jsonChar
  split_ifs with hquote hslash hnewline htab hreturn hback hfeed hcontrol
  · rw [hquote]; rfl
  · rw [hslash]; rfl
  · rw [hnewline]; rfl
  · rw [htab]; rfl
  · rw [hreturn]; rfl
  · rw [eq_of_toNat_eq hback]; rfl
  · rw [eq_of_toNat_eq hfeed]; rfl
  · have hhigh := hexValue_digitChar (c.toNat / 16) (by omega)
    have hlow := hexValue_digitChar (c.toNat % 16) (by omega)
    have hvalue : 16 * (c.toNat / 16) + c.toNat % 16 = c.toNat := by omega
    simp [readChar, hhigh, hlow, hvalue]
  · simp [readChar, hslash]

theorem selfDelimiting_jsonChar : SelfDelimiting jsonChar :=
  selfDelimiting_of_read readChar_jsonChar

/-- No character is written as a quotation mark first. -/
theorem jsonChar_start (c : Char) : ∃ d rest, jsonChar c = d :: rest ∧ d ≠ '"' := by
  unfold jsonChar
  split_ifs with hquote <;> exact ⟨_, _, rfl, by first | decide | exact hquote⟩

/-! ## Strings and objects of texts -/

theorem toList_jsonQuoted (text : String) :
    (jsonQuoted text).toList = '"' :: text.toList.flatMap jsonChar ++ ['"'] :=
  String.toList_ofList

theorem selfDelimiting_jsonQuoted :
    SelfDelimiting fun text : String => (jsonQuoted text).toList := by
  have hchars := (selfDelimiting_jsonChar.flatMap jsonChar_start).cons '"'
  intro text other r s heq
  simp only [toList_jsonQuoted] at heq
  obtain ⟨htext, hrest⟩ := hchars heq
  exact ⟨String.toList_inj.1 htext, hrest⟩

/-- A field of an object of texts. -/
def fieldChars (field : String × String) : List Char :=
  (jsonQuoted field.1).toList ++ ':' :: (jsonQuoted field.2).toList

theorem selfDelimiting_fieldChars : SelfDelimiting fieldChars := by
  have hboth := selfDelimiting_jsonQuoted.append (selfDelimiting_jsonQuoted.cons ':')
  exact hboth

theorem toList_jsonTexts (fields : List (String × String)) :
    (jsonTexts fields).toList =
      '\x7b' :: ([','].intercalate (fields.map fieldChars) ++ ['\x7d']) := by
  have hfield : String.toList ∘ (fun field : String × String =>
      jsonQuoted field.1 ++ ":" ++ jsonQuoted field.2) = fieldChars := by
    funext field
    simp [fieldChars]
  simp [jsonTexts, jsonObject, ← hfield, Function.comp_def]

theorem selfDelimiting_jsonTexts :
    SelfDelimiting fun fields : List (String × String) => (jsonTexts fields).toList := by
  have hstart (field : String × String) : ∃ c rest, fieldChars field = c :: rest ∧ c ≠ '\x7d' :=
    ⟨'"', _, by rw [fieldChars, toList_jsonQuoted, List.cons_append, List.cons_append], by decide⟩
  have hcomma : ',' ≠ '\x7d' := by decide
  have hfields := (selfDelimiting_fieldChars.intercalate hcomma hstart).cons '\x7b'
  intro fields others r s heq
  simp only [toList_jsonTexts] at heq
  exact hfields heq

/-! ## Control characters -/

/-- No character is below U+0020. -/
def Uncontrolled (text : List Char) : Prop := ∀ c ∈ text, 0x20 ≤ c.toNat

instance (text : List Char) : Decidable (Uncontrolled text) :=
  List.decidableBAll (fun c : Char => 0x20 ≤ c.toNat) text

theorem uncontrolled_append {first second : List Char} :
    Uncontrolled (first ++ second) ↔ Uncontrolled first ∧ Uncontrolled second :=
  List.forall_mem_append

theorem uncontrolled_of_isDigit {c : Char} (h : c.isDigit) : 0x20 ≤ c.toNat := by
  have hbounds : '0'.val ≤ c.val ∧ c.val ≤ '9'.val := by simpa [Char.isDigit] using h
  have hleast : '0'.toNat ≤ c.toNat := UInt32.le_iff_toNat_le.1 hbounds.1
  exact Nat.le_trans (by decide) hleast

theorem uncontrolled_repr (n : Nat) : Uncontrolled n.repr.toList := by
  intro c hc
  rw [Nat.toList_repr] at hc
  exact uncontrolled_of_isDigit (Nat.isDigit_of_mem_toDigits (by decide) (by decide) hc)

theorem uncontrolled_digitChar : ∀ n < 16, 0x20 ≤ (Nat.digitChar n).toNat := by decide

theorem uncontrolled_jsonChar (c : Char) : Uncontrolled (jsonChar c) := by
  unfold jsonChar
  split_ifs with hquote hslash hnewline htab hreturn hback hfeed hcontrol
  iterate 7 decide
  · have hhigh := uncontrolled_digitChar (c.toNat / 16) (by omega)
    have hlow := uncontrolled_digitChar (c.toNat % 16) (by omega)
    simp [Uncontrolled, hhigh, hlow]
  · simpa [Uncontrolled] using hcontrol

theorem uncontrolled_jsonQuoted (text : String) : Uncontrolled (jsonQuoted text).toList := by
  rw [toList_jsonQuoted]
  intro c hc
  simp only [List.cons_append, List.mem_cons, List.mem_append, List.mem_flatMap,
    List.not_mem_nil, or_false] at hc
  rcases hc with rfl | ⟨d, -, hc⟩ | rfl
  · decide
  · exact uncontrolled_jsonChar d c hc
  · decide

theorem uncontrolled_intercalate {texts : List (List Char)}
    (h : ∀ text ∈ texts, Uncontrolled text) : Uncontrolled ([','].intercalate texts) := by
  cases texts with
  | nil => exact List.forall_mem_nil _
  | cons first rest =>
    obtain ⟨hfirst, hrest⟩ := List.forall_mem_cons.1 h
    rw [intercalate_cons]
    refine uncontrolled_append.2 ⟨hfirst, fun c hc => ?_⟩
    obtain ⟨text, htext, hc⟩ := List.mem_flatMap.1 hc
    rcases List.mem_cons.1 hc with rfl | hc
    · decide
    · exact hrest text htext c hc

theorem uncontrolled_jsonTexts (fields : List (String × String)) :
    Uncontrolled (jsonTexts fields).toList := by
  have hfields : ∀ text ∈ fields.map fieldChars, Uncontrolled text := by
    refine List.forall_mem_map.2 fun field _ => uncontrolled_append.2 ?_
    exact ⟨uncontrolled_jsonQuoted field.1,
      List.forall_mem_cons.2 ⟨by decide, uncontrolled_jsonQuoted field.2⟩⟩
  rw [toList_jsonTexts]
  exact List.forall_mem_cons.2
    ⟨by decide, uncontrolled_append.2 ⟨uncontrolled_intercalate hfields, by decide⟩⟩

theorem Uncontrolled.notMem {text : List Char} (h : Uncontrolled text) {c : Char}
    (hc : c.toNat < 0x20) : c ∉ text :=
  fun hmem => absurd (h c hmem) (Nat.not_le.2 hc)

theorem Uncontrolled.plain {text : List Char} (h : Uncontrolled text) : Plain text where
  newline := h.notMem (by decide)
  return_ hlast := h.notMem (by decide) (List.mem_of_getLast? hlast)

end IniCompose.Text
