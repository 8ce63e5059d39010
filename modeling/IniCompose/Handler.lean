import IniCompose.Policy
import IniCompose.SectionState

/-!
# Handlers

A handler is a program for one option. A program is data: it is done, has failed, or asks the engine
for something and goes on with the answer. Nothing else can happen in a handler, so what holds of
every answer to every request holds of every handler.
-/
namespace IniCompose

/-! ## Option keys

An option key that names an operation is split into the operation and its parameter. Operations are
compared in a normal form, so that case and punctuation do not matter. -/

/-- The normal form of an operation: ASCII letters in lower case, ASCII digits and the underscore as
they are, every other character as an underscore. -/
def Operation.normalForm (token : String) : String :=
  .ofList (token.toList.map fun c => if c.isAlphanum || c = '_' then c.toLower else '_')

structure OptionKey where
  /-- The operation in normal form; none for a key that is merely assigned. -/
  operation : Option String
  /-- What follows the operation, or the whole key if there is none. -/
  parameter : String
  /-- The suffix of a repeated key. -/
  suffix : Option String
  deriving DecidableEq

def OptionKey.inspect (key : OptionKey) : String :=
  Text.inspectRecord "ParsedKey"
    [("operation", Text.inspectOption key.operation),
     ("parameter", Text.diagnosticQuoted key.parameter),
     ("suffix", Text.inspectOption key.suffix)]

/-- An option as its handler sees it. -/
structure OptionSite where
  sectionName : String
  /-- The key as written in the document, without the suffix. -/
  rawKey : String
  value : String
  key : OptionKey
  deriving DecidableEq

def OptionSite.inspect (site : OptionSite) : String :=
  Text.inspectPartly "HandlerContext"
    [("section", Text.diagnosticQuoted site.sectionName),
     ("key", site.key.inspect),
     ("value", Text.diagnosticQuoted site.value)]

/-! ## Programs -/

/-- Why a handler failed. A context is put around an error to say what was being done. -/
inductive HandlerError
  | fault (fault : Fault)
  | text (text : String)
  | context (text : String) (inner : HandlerError)
  deriving DecidableEq

namespace HandlerError

/-- The fault at the bottom, if there is one; contexts around it do not count. -/
def fault? : HandlerError → Option Fault
  | fault f => some f
  | text _ => none
  | context _ inner => inner.fault?

def message : HandlerError → String
  | fault f => f.message
  | text t => t
  | context t _ => t

/-- The errors below the message, outermost first. -/
def causes : HandlerError → List String
  | fault f => f.causes
  | text _ => []
  | context _ inner => inner.message :: inner.causes

end HandlerError

/-- What a handler may ask of the engine. -/
inductive Request
  /-- The state of the section so far. -/
  | state
  | setState (state : SectionState)
  /-- The state of another section, evaluated within the same run. -/
  | evaluate (name : String)
  /-- Puts a fault to the policy. -/
  | report (severity : Severity) (fault : Fault)
  | record (kind : Trace.Kind) (name : String) (details : List (String × String))
  /-- The number of active sections. -/
  | depth
  | settings
  | debug (level : UInt8) (text : String)
  /-- A remark for whoever runs the engine. -/
  | note (text : String)

def Request.Answer : Request → Type
  | state => SectionState
  | evaluate _ => Except Fault SectionState
  | report _ _ => Except Fault Unit
  | depth => Nat
  | settings => Settings
  | _ => Unit

inductive Program (α : Type) : Type
  | done (a : α)
  | fail (error : HandlerError)
  | ask (request : Request) (next : request.Answer → Program α)

abbrev Handler := OptionSite → Program Unit

namespace Program

variable {α β : Type}

def bind : Program α → (α → Program β) → Program β
  | done a, k => k a
  | fail error, _ => fail error
  | ask request next, k => ask request fun answer => (next answer).bind k

instance : Monad Program where
  pure := done
  bind := bind

theorem id_map (program : Program α) : id <$> program = program := by
  change program.bind _ = program
  induction program with
  | done a => rfl
  | fail error => rfl
  | ask request next ih => simp only [bind, ask.injEq, heq_eq_eq, true_and]; exact funext ih

theorem bind_assoc {γ : Type} (program : Program α) (f : α → Program β) (g : β → Program γ) :
    program >>= f >>= g = program >>= fun a => f a >>= g := by
  change (program.bind f).bind g = program.bind fun a => (f a).bind g
  induction program with
  | done a => rfl
  | fail error => rfl
  | ask request next ih => simp only [bind, ask.injEq, heq_eq_eq, true_and]; exact funext ih

instance : LawfulMonad Program :=
  LawfulMonad.mk' Program id_map (fun _ _ => rfl) bind_assoc

/-- Goes on with `recover` where a program fails. What it did before stays done. -/
def tryCatch : Program α → (HandlerError → Program α) → Program α
  | done a, _ => done a
  | fail error, recover => recover error
  | ask request next, recover => ask request fun answer => (next answer).tryCatch recover

instance : MonadExceptOf HandlerError Program where
  throw := fail
  tryCatch := tryCatch

/-! ## Requests as programs -/

def state : Program SectionState := ask .state done
def setState (state : SectionState) : Program Unit := ask (.setState state) done
def evaluate (name : String) : Program (Except Fault SectionState) := ask (.evaluate name) done
def report (severity : Severity) (fault : Fault) : Program (Except Fault Unit) :=
  ask (.report severity fault) done
def record (kind : Trace.Kind) (name : String) (details : List (String × String)) : Program Unit :=
  ask (.record kind name details) done
def depth : Program Nat := ask .depth done
def settings : Program Settings := ask .settings done
def debug (level : UInt8) (text : String) : Program Unit := ask (.debug level text) done
def note (text : String) : Program Unit := ask (.note text) done

def modifyState (f : SectionState → SectionState) : Program Unit := do setState (f (← state))

/-- Fails with the fault of an answer that is one. -/
def ofAnswer : Except Fault α → Program α
  | .ok a => done a
  | .error fault => fail (.fault fault)

/-- Appends the option itself to the actions of the section. -/
def addAction (site : OptionSite) : Program Unit :=
  modifyState (·.addAction
    { operation := site.key.operation.getD ""
      parameter := site.key.parameter
      value := site.value
      sectionName := site.sectionName })

end Program

/-- The handler of `use`: the state of the named section is applied on top of what the section has
so far, so that options before it are overridden and options after it override. -/
def importSection : Handler := fun site => do
  let target := site.key.parameter
  if target = "" then
    let reported ← Program.report .minor
      (.optionFormat site.sectionName site.rawKey "'use' requires a section name")
    Program.ofAnswer reported
  else
    Program.debug 2 ("[" ++ site.sectionName ++ "] use [" ++ target ++ "]")
    let imported ← Program.ofAnswer (← Program.evaluate target)
    Program.modifyState (·.merge imported)

end IniCompose
