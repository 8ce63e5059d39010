import IniCompose.Proofs.Destination.Limited
import IniCompose.Proofs.Engine.Yielded

/-!
# What reaches a destination

Sections are evaluated and written in turn, so that a section that fails and a destination without
room can both end the output, whichever comes first. What has reached the destination by then is a
beginning of what a destination with room for everything gets; and that is the text of the sections
before the first one that fails, without anything of that one.
-/
namespace IniCompose

namespace Engine

open Destination Outcome

variable {engine : Engine} {σ : Type} {destination : Destination σ} {limit : Option Nat}
  {taken : σ → List UInt8}

/-- The engine behind the evaluation of sections, one after the other. -/
def afterEach (engine : Engine) (names : List String) : Engine :=
  names.foldl (fun engine name => (evaluate name engine).state) engine

/-- The texts of evaluated sections, with empty lines between them. -/
def renderedText (entries : List (String × SectionState)) : String :=
  "\n".intercalate (entries.map fun entry => Document.sectionText entry.1 entry.2.options)

theorem sectionsText_writtenOf (entries : List (String × SectionState)) :
    Document.sectionsText "" (writtenOf entries) = renderedText entries := by
  cases entries with
  | nil => rfl
  | cons first rest =>
    rw [sectionsText_writtenOf_cons, String.empty_append]
    induction rest generalizing first with
    | nil => simp [renderedText, writtenOf, Document.sectionsText]
    | cons second rest ih =>
      rw [sectionsText_writtenOf_cons, String.append_assoc, ih second]
      simp [renderedText, String.append_assoc]

/-! ## One section more -/

section

variable {name : String} {fault : Fault} {state : SectionState} {written : σ}

theorem writeSections_cons_of_error (h : (evaluate name engine).result = .error fault)
    (destination : Destination σ) (separator : String) (rest : List String) (written : σ) :
    writeSections destination separator (name :: rest) (engine, written) =
      ⟨.error fault, ((evaluate name engine).state, written), (evaluate name engine).journal⟩ := by
  simp only [writeSections_cons, h]

/-- The text of a section behind the separator. -/
def separatedText (separator name : String) (state : SectionState) : String :=
  separator ++ Document.sectionText name state.options

theorem writeSections_cons_of_refused (h : (evaluate name engine).result = .ok state)
    {separator : String} {error : IoError}
    (hput : (destination.put (separatedText separator name state) written).1 = .error error)
    (rest : List String) :
    writeSections destination separator (name :: rest) (engine, written) =
      ⟨.error (.unwritable error), ((evaluate name engine).state,
        (destination.put (separatedText separator name state) written).2),
        (evaluate name engine).journal⟩ := by
  unfold separatedText at hput ⊢
  simp only [writeSections_cons, h, hput]

theorem writeSections_cons_of_taken (h : (evaluate name engine).result = .ok state)
    {separator : String}
    (hput : (destination.put (separatedText separator name state) written).1 = .ok ())
    (rest : List String) :
    writeSections destination separator (name :: rest) (engine, written) =
      (writeSections destination "\n" rest ((evaluate name engine).state,
        (destination.put (separatedText separator name state) written).2)).after
        (evaluate name engine).journal := by
  unfold separatedText at hput ⊢
  simp only [writeSections_cons, h, hput]

end

/-! ## Sections -/

/-- What becomes of writing sections to a text: all of them are written, or those before the first
one that fails. Induction on the sections. -/
theorem writeSections_text (engine : Engine) (separator : String) (names : List String)
    (written : String) :
    let outcome := writeSections Destination.text separator names (engine, written)
    ∃ entries, engine.Yields entries ∧
      outcome.state.2 = written ++ Document.sectionsText separator (writtenOf entries) ∧
      (outcome.result = .ok () ∧ names = entries.map Prod.fst ∨
        ∃ name later fault, outcome.result = .error fault ∧
          names = entries.map Prod.fst ++ name :: later ∧
          (evaluate name (engine.afterEach (entries.map Prod.fst))).result = .error fault) := by
  induction names generalizing engine separator written with
  | nil => exact ⟨[], trivial, (String.append_empty).symm, .inl ⟨rfl, rfl⟩⟩
  | cons name rest ih =>
    cases hresult : (evaluate name engine).result with
    | error fault =>
      rw [writeSections_cons_of_error hresult]
      exact ⟨[], trivial, (String.append_empty).symm, .inr ⟨name, rest, fault, rfl, rfl, hresult⟩⟩
    | ok state =>
      rw [writeSections_cons_of_taken hresult rfl]
      obtain ⟨entries, hyields, htext, hcases⟩ := ih (evaluate name engine).state "\n"
        (written ++ separatedText separator name state)
      refine ⟨(name, state) :: entries, ⟨hresult, hyields⟩, htext.trans ?_, ?_⟩
      · simp only [sectionsText_writtenOf_cons, separatedText, String.append_assoc]
      · rcases hcases with ⟨hok, rfl⟩ | ⟨failing, later, fault, herror, rfl, hfails⟩
        · exact .inl ⟨hok, rfl⟩
        · exact .inr ⟨failing, later, fault, herror, rfl, hfails⟩

theorem exists_state_writeSections_text (engine : Engine) (separator : String)
    (names : List String) (written : String) :
    ∃ more, (writeSections Destination.text separator names (engine, written)).state.2 =
      written ++ more := by
  obtain ⟨entries, -, htext, -⟩ := writeSections_text engine separator names written
  exact ⟨_, htext⟩

/-- Sections are written elsewhere as they are written to a text, as far as there is room. The
induction is on the sections; `written` is what has been taken so far. -/
theorem writeSections_takes (h : destination.Takes limit taken) (engine : Engine)
    (separator : String) (names : List String) {written : String} {s : σ}
    (hs : taken s = bytesOf written) (hfits : Fits limit (bytesOf written)) :
    let whole := writeSections Destination.text separator names (engine, written)
    let part := writeSections destination separator names (engine, s)
    taken part.state.2 = upTo limit (bytesOf whole.state.2) ∧
      (Fits limit (bytesOf whole.state.2) → part.result = whole.result) ∧
      (¬ Fits limit (bytesOf whole.state.2) →
        ∃ error, part.result = .error (.unwritable error)) := by
  induction names generalizing engine separator written s with
  | nil => exact ⟨hs.trans (upTo_of_fits hfits).symm, fun _ => rfl, fun hnot => absurd hfits hnot⟩
  | cons name rest ih =>
    cases hresult : (evaluate name engine).result with
    | error fault =>
      rw [writeSections_cons_of_error hresult, writeSections_cons_of_error hresult]
      exact ⟨hs.trans (upTo_of_fits hfits).symm, fun _ => rfl, fun hnot => absurd hfits hnot⟩
    | ok state =>
      have htaken := h.taken_put (separatedText separator name state) s (hs ▸ hfits)
      have hput := h.put_eq_ok_iff (separatedText separator name state) s (hs ▸ hfits)
      rw [hs, ← bytesOf_append] at htaken hput
      have hwhole := @writeSections_cons_of_taken engine String Destination.text name state written
        hresult separator rfl rest
      simp only [hwhole, state_after, result_after, Destination.put_text]
      cases hmore : (destination.put (separatedText separator name state) s).1 with
      | ok _ =>
        have hfits' := hput.1 hmore
        rw [writeSections_cons_of_taken hresult hmore]
        exact ih (evaluate name engine).state "\n" (htaken.trans (upTo_of_fits hfits')) hfits'
      | error error =>
        have hfull : ¬ Fits limit (bytesOf (written ++ separatedText separator name state)) := by
          intro hfits'
          cases hmore.symm.trans (hput.2 hfits')
        obtain ⟨more, htext⟩ := exists_state_writeSections_text (evaluate name engine).state "\n"
          rest (written ++ separatedText separator name state)
        rw [writeSections_cons_of_refused hresult hmore, htext, bytesOf_append,
          upTo_append_of_not_fits hfull]
        exact ⟨htaken, fun hall => absurd hall.left hfull, fun _ => ⟨error, rfl⟩⟩

/-! ## Documents -/

/-- The collapsed document is written elsewhere as it is written to a text, as far as there is room;
only flushing can fail besides. -/
theorem write_takes (h : destination.Takes limit taken) {start : σ} (hstart : taken start = [])
    (engine : Engine) :
    let whole := writeSections Destination.text "" engine.document.names (engine, "")
    let part := write destination (engine, start)
    taken part.state.2 = upTo limit (bytesOf whole.state.2) ∧
      (Fits limit (bytesOf whole.state.2) → part.result =
        whole.result.bind fun _ => (destination.flush part.state.2).mapError .unwritable) ∧
      (¬ Fits limit (bytesOf whole.state.2) →
        ∃ error, part.result = .error (.unwritable error)) := by
  have hempty : taken start = bytesOf "" := hstart
  obtain ⟨htaken, hroom, hfull⟩ :=
    writeSections_takes h engine "" engine.document.names hempty (fits_nil limit)
  rw [write_apply]
  refine ⟨htaken, fun hfits => ?_, fun hnot => ?_⟩
  · dsimp only
    rw [hroom hfits]
  · obtain ⟨error, herror⟩ := hfull hnot
    exact ⟨error, by dsimp only; rw [herror]; rfl⟩

/-- A device without limit takes what a text takes. -/
theorem write_unlimited (engine : Engine) :
    let whole := writeSections Destination.text "" engine.document.names (engine, "")
    let unlimited := write (Destination.device none false) (engine, [])
    unlimited.state.2 = bytesOf whole.state.2 ∧ unlimited.result = whole.result := by
  obtain ⟨htaken, hresult, -⟩ := write_takes (takes_device none false) rfl engine
  refine ⟨htaken, (hresult (by simp [Fits])).trans ?_⟩
  cases (writeSections Destination.text "" engine.document.names (engine, "")).result <;> rfl

/-- A device without limit gets the whole collapsed document, or the sections before the first one
that fails. -/
theorem write_unlimited_cases (engine : Engine) :
    let unlimited := write (Destination.device none false) (engine, [])
    (∀ fault, unlimited.result = .error fault → ∃ entries name later,
      engine.document.names = entries.map Prod.fst ++ name :: later ∧ engine.Yields entries ∧
        (evaluate name (engine.afterEach (entries.map Prod.fst))).result = .error fault ∧
        unlimited.state.2 = bytesOf (renderedText entries)) ∧
    (unlimited.result = .ok () →
      ∃ text, (collapse engine).result = .ok text ∧ unlimited.state.2 = bytesOf text) := by
  obtain ⟨hstate, hresult⟩ := write_unlimited engine
  obtain ⟨entries, hyields, htext, hcases⟩ :=
    writeSections_text engine "" engine.document.names ""
  rw [String.empty_append, sectionsText_writtenOf] at htext
  dsimp only
  rw [hstate, hresult, htext]
  rcases hcases with ⟨hok, hnames⟩ | ⟨name, later, fault, herror, hnames, hfails⟩
  · refine ⟨fun fault herror => absurd (hok.symm.trans herror) (by simp), fun _ => ?_⟩
    refine ⟨renderedText entries, collapse_eq_ok_iff.2 ?_, rfl⟩
    exact ⟨entries, hnames.symm, hyields, (sectionsText_writtenOf entries).symm⟩
  · refine ⟨fun other hother => ?_, fun hok => absurd (herror.symm.trans hok) (by simp)⟩
    obtain rfl : fault = other := Except.error.inj (herror.symm.trans hother)
    exact ⟨entries, name, later, hnames, hyields, hfails, rfl⟩

/-- A destination with limited room gets a beginning of what a device without limit gets. If that
fits, it gets all of it and writing ends in the same way, but that flushing can fail at the end; if
it does not fit, it gets as much as fits, and writing ends with its refusal, whatever else would
have failed later. What a device without limit gets is the collapsed document, or if a section fails
the text of the sections before it. -/
theorem write_delivers_beginning {room : Nat} (h : destination.Takes (some room) taken) {start : σ}
    (hstart : taken start = []) (engine : Engine) :
    let whole := write (Destination.device none false) (engine, [])
    let part := write destination (engine, start)
    (whole.state.2.length ≤ room →
      taken part.state.2 = whole.state.2 ∧
      (∀ fault, whole.result = .error fault → part.result = .error fault) ∧
      (whole.result = .ok () →
        part.result = (destination.flush part.state.2).mapError .unwritable)) ∧
    (room < whole.state.2.length →
      taken part.state.2 = whole.state.2.take room ∧
      ∃ error, part.result = .error (.unwritable error)) ∧
    (∀ fault, whole.result = .error fault → ∃ entries name later,
      engine.document.names = entries.map Prod.fst ++ name :: later ∧ engine.Yields entries ∧
        (evaluate name (engine.afterEach (entries.map Prod.fst))).result = .error fault ∧
        whole.state.2 = bytesOf (renderedText entries)) ∧
    (whole.result = .ok () →
      ∃ text, (collapse engine).result = .ok text ∧ whole.state.2 = bytesOf text) := by
  obtain ⟨hstate, hresult⟩ := write_unlimited engine
  obtain ⟨htaken, hroom, hfull⟩ := write_takes h hstart engine
  rw [← hstate] at htaken hroom hfull
  rw [← hresult] at hroom
  refine ⟨fun hshort => ?_, fun hlong => ?_, write_unlimited_cases engine⟩
  · have hfits : ∀ bytes, bytes.length ≤ room → Fits (some room) bytes := by simp [Fits]
    rw [hroom (hfits _ hshort)]
    refine ⟨htaken.trans (upTo_of_fits (hfits _ hshort)), fun fault herror => ?_, fun hok => ?_⟩
    · rw [herror]
      rfl
    · rw [hok]
      rfl
  · exact ⟨htaken, hfull (by simpa [Fits] using hlong)⟩

/-- Two sections that can be written, one that fails because it imports a section that does not
exist, and one behind it. -/
def failing : Document :=
  ⟨.ofList [("a", .ofList [("x", "1")]), ("b", .ofList [("y", "2\n3")]),
    ("c", .ofList [("z", "4"), ("use d", "")]), ("e", ∅)]⟩

/-- Written letter by letter to a device that could not even be flushed, the sections before the
failing one get there, and its fault comes out; with room up to the second header, the device is
full before the third section is looked at. -/
theorem write_delivers_beginning_failing :
    ∃ engine, ofDocument failing .standard {} = .ok engine ∧
      let part room := write ((Destination.device (some room) true).inPieces letters) (engine, [])
      (part 100).state.2 = bytesOf "[a]\nx: 1\n\n[b]\ny: 2\n    3\n" ∧
      (part 100).result = .error (.sectionNotFound "d") ∧
      (part 11).state.2 = bytesOf "[a]\nx: 1\n\n[" ∧
      ∃ error, (part 11).result = .error (.unwritable error) := by
  obtain ⟨engine, hengine, hstate, hresult⟩ : ∃ engine,
      ofDocument failing .standard {} = .ok engine ∧
      (write (Destination.device none false) (engine, [])).state.2 =
        bytesOf "[a]\nx: 1\n\n[b]\ny: 2\n    3\n" ∧
      (write (Destination.device none false) (engine, [])).result =
        .error (.sectionNotFound "d") := ⟨_, rfl, by rfl, by rfl⟩
  have hwide := (write_delivers_beginning
    ((takes_device (some 100) true).inPieces join_letters) rfl engine).1
  have hnarrow := (write_delivers_beginning
    ((takes_device (some 11) true).inPieces join_letters) rfl engine).2.1
  rw [hstate] at hwide hnarrow
  obtain ⟨htaken, hfault, -⟩ := hwide (by decide)
  obtain ⟨htaken', hfull⟩ := hnarrow (by decide)
  exact ⟨engine, hengine, htaken, hfault _ hresult, htaken', hfull⟩

end Engine

end IniCompose
