import IniCompose.Engine.View

/-!
# Collapsed output

The sections of a document with every operation applied, written so that reading them again needs
no handlers. A section is evaluated before anything of it is written. The text goes to a
destination, which may refuse it.
-/
namespace IniCompose

/-! ## Destinations

Where text can be written: a growing text, or a device that takes a limited number of bytes. -/

/-- How to write to something whose state is `σ`. -/
structure Destination (σ : Type) where
  put : String → σ → Except IoError Unit × σ
  flush : σ → Except IoError Unit

namespace Destination

/-- A text that takes everything. -/
def text : Destination String where
  put more written := (.ok (), written ++ more)
  flush _ := .ok ()

@[simp] theorem put_text (more written : String) :
    text.put more written = (.ok (), written ++ more) := rfl

@[simp] theorem flush_text (written : String) : text.flush written = .ok () := rfl

/-- The bytes of a text in UTF-8. -/
def bytesOf (text : String) : List UInt8 := text.toUTF8.data.toList

/-- A device that takes bytes up to a limit, and everything if there is none; it fails on the first
byte beyond the limit. The state lists the bytes taken. -/
def device (limit : Option Nat) (failsFlush : Bool) : Destination (List UInt8) where
  put more taken :=
    let all := taken ++ bytesOf more
    match limit with
    | none => (.ok (), all)
    | some limit =>
      if all.length ≤ limit then (.ok (), all)
      else (.error (.other "disk full"), all.take limit)
  flush _ := if failsFlush then .error (.other "flush failed") else .ok ()

/-- The text that bytes encode. -/
def textOf? (bytes : List UInt8) : Option String := String.fromUTF8? ⟨bytes.toArray⟩

end Destination

/-! ## Writing a document -/

namespace Engine

variable {σ : Type}

/-- Puts text to a destination; its refusal is a fault. -/
def put (destination : Destination σ) (text : String) : Journaled (Engine × σ) Fault Unit :=
  fun s =>
    let (result, written) := destination.put text s.2
    ⟨result.mapError .unwritable, (s.1, written), []⟩

/-- Writes sections one after the other, each after the first one behind an empty line. -/
def writeSections (destination : Destination σ) (separator : String) :
    List String → Journaled (Engine × σ) Fault Unit
  | [] => pure ()
  | name :: rest => do
    let state ← .onFirst (evaluate name)
    put destination (separator ++ Document.sectionText name state.options)
    writeSections destination "\n" rest

/-- Writes the collapsed document. -/
def write (destination : Destination σ) : Journaled (Engine × σ) Fault Unit := do
  writeSections destination "" (← get).1.document.names
  .ofExcept ((destination.flush (← get).2).mapError .unwritable)

/-- The text of the collapsed document. -/
def collapse : Journaled Engine Fault String := fun engine =>
  let outcome := write Destination.text (engine, "")
  ⟨outcome.result.map fun _ => outcome.state.2, outcome.state.1, outcome.journal⟩

end Engine

end IniCompose
