import IniCompose.Engine.Collapse

/-!
# Destinations with limited room

A destination with room for so many bytes takes what there is room for, and refuses a text that does
not fit as a whole. It makes no difference whether a text is put there at once or in pieces.
-/
namespace IniCompose.Destination

variable {σ : Type} {destination : Destination σ} {limit : Option Nat} {taken : σ → List UInt8}
  {first later : List UInt8}

@[simp] theorem bytesOf_append (first later : String) :
    bytesOf (first ++ later) = bytesOf first ++ bytesOf later := by
  simp [bytesOf]

@[simp] theorem bytesOf_empty : bytesOf "" = [] := rfl

/-! ## Room -/

/-- There is room for the bytes; without a limit there always is. -/
def Fits (limit : Option Nat) (bytes : List UInt8) : Prop := ∀ most ∈ limit, bytes.length ≤ most

/-- The bytes for which there is room. -/
def upTo : Option Nat → List UInt8 → List UInt8
  | none, bytes => bytes
  | some limit, bytes => bytes.take limit

theorem fits_nil (limit : Option Nat) : Fits limit [] := by simp [Fits]

theorem Fits.left (h : Fits limit (first ++ later)) : Fits limit first := by
  intro most hmost
  have := h most hmost
  grind

theorem upTo_of_fits {bytes : List UInt8} (h : Fits limit bytes) : upTo limit bytes = bytes := by
  cases limit with
  | none => rfl
  | some most => exact List.take_of_length_le (h most rfl)

/-- Where there is no room, what comes later does not matter. -/
theorem upTo_append_of_not_fits (h : ¬ Fits limit first) (later : List UInt8) :
    upTo limit (first ++ later) = upTo limit first := by
  cases limit with
  | none => simp [Fits] at h
  | some most =>
    have hlength : most ≤ first.length := by
      simp only [Fits, Option.mem_some_iff, forall_eq'] at h
      omega
    exact List.take_append_of_le_length hlength

/-! ## Destinations -/

/-- The destination takes bytes up to a limit, and `taken` tells those that it has taken so far. A
text that does not fit is refused, but the bytes for which there is room are taken. -/
structure Takes (destination : Destination σ) (limit : Option Nat) (taken : σ → List UInt8) :
    Prop where
  taken_put : ∀ text s, Fits limit (taken s) →
    taken (destination.put text s).2 = upTo limit (taken s ++ bytesOf text)
  put_eq_ok_iff : ∀ text s, Fits limit (taken s) →
    ((destination.put text s).1 = .ok () ↔ Fits limit (taken s ++ bytesOf text))

theorem takes_device (limit : Option Nat) (failsFlush : Bool) :
    (device limit failsFlush).Takes limit fun bytes => bytes := by
  cases limit with
  | none => constructor <;> simp [device, upTo, Fits]
  | some most =>
    refine ⟨fun text bytes _ => ?_, fun text bytes _ => ?_⟩ <;>
      by_cases h : (bytes ++ bytesOf text).length ≤ most
    · simp only [device, h, if_true]
      exact (List.take_of_length_le h).symm
    · simp only [device, h, if_false]
      rfl
    · simp only [device, h, if_true]
      simpa [Fits] using h
    · simp only [device, h, if_false]
      simpa [Fits] using h

/-! ## Pieces -/

/-- Puts pieces one after the other, up to the first one that is refused. -/
def putEach (destination : Destination σ) : List String → σ → Except IoError Unit × σ
  | [], s => (.ok (), s)
  | piece :: rest, s =>
    match destination.put piece s with
    | (.ok _, after) => destination.putEach rest after
    | (.error error, after) => (.error error, after)

/-- The destination with every text put there in pieces. -/
def inPieces (destination : Destination σ) (cut : String → List String) : Destination σ where
  put text := destination.putEach (cut text)
  flush := destination.flush

/-- Induction on the pieces: with the first one that does not fit the whole does not fit. -/
theorem Takes.putEach (h : destination.Takes limit taken) (pieces : List String) {s : σ}
    (hs : Fits limit (taken s)) :
    taken (destination.putEach pieces s).2 = upTo limit (taken s ++ bytesOf (String.join pieces)) ∧
      ((destination.putEach pieces s).1 = .ok () ↔
        Fits limit (taken s ++ bytesOf (String.join pieces))) := by
  induction pieces generalizing s with
  | nil => simp [Destination.putEach, upTo_of_fits hs, hs]
  | cons piece rest ih =>
    have htaken := h.taken_put piece s hs
    have hresult := h.put_eq_ok_iff piece s hs
    rw [String.join_cons, bytesOf_append, ← List.append_assoc]
    unfold Destination.putEach
    split
    · next after hput =>
      simp only [hput, true_iff] at htaken hresult
      rw [upTo_of_fits hresult] at htaken
      rw [← htaken] at hresult ⊢
      exact ih hresult
    · next error after hput =>
      simp only [hput, reduceCtorEq, false_iff] at htaken hresult
      rw [upTo_append_of_not_fits hresult]
      exact ⟨htaken, iff_of_false (by simp) fun hfits => hresult hfits.left⟩

/-- However texts are cut into pieces, the same bytes are taken of them. -/
theorem Takes.inPieces (h : destination.Takes limit taken) {cut : String → List String}
    (hcut : ∀ text, String.join (cut text) = text) :
    (destination.inPieces cut).Takes limit taken := by
  refine ⟨fun text s hs => ?_, fun text s hs => ?_⟩
  · have htaken := (h.putEach (cut text) hs).1
    rwa [hcut] at htaken
  · have hresult := (h.putEach (cut text) hs).2
    rwa [hcut] at hresult

/-- A text in the smallest pieces. -/
def letters (text : String) : List String := text.toList.map String.singleton

theorem join_letters (text : String) : String.join (letters text) = text := by
  suffices h : ∀ chars : List Char,
      String.join (chars.map String.singleton) = String.ofList chars by
    simp [letters, h]
  intro chars
  induction chars with
  | nil => rfl
  | cons c rest ih => simp [ih]

end IniCompose.Destination
