import IniCompose.ActiveSections
import IniCompose.Document.Basic
import IniCompose.Registry

/-!
# Evaluating sections

A section is evaluated option by option in file order. An option whose key names an operation goes
to the handler of the operation, any other one is assigned. Handlers may request further sections;
a section that is requested while it is active is a cycle, and a section that has been evaluated is
taken from the cache.

`visit` evaluates one section, given how the sections that its handlers request are evaluated;
`evaluateWithin` closes the recursion. An active section other than the innermost one exists and
none is active twice, so requests nest at most as deep as there are sections, and one more.
-/
namespace IniCompose

/-- What an evaluation is based on and never changes. -/
structure Setup where
  document : Document
  registry : Registry
  settings : Settings
  policy : Policy
  policy_eq : settings.policy = .ok policy

/-- What an evaluation changes as it goes. -/
structure Session where
  /-- The states of the sections that have been evaluated. -/
  cache : OrderedMap SectionState := ∅
  active : ActiveSections := ∅
  /-- The message of the fault that was raised last. A fault that comes out of a handler with this
  message has already been put to the policy. -/
  raised : Option String := none

abbrev Evaluation := Journaled Session Fault

/-- How a section is evaluated. -/
abbrev Evaluator := String → Evaluation SectionState

namespace Evaluation

def record (depth : Nat) (kind : Trace.Kind) (name : String) (details : List (String × String)) :
    Evaluation Unit :=
  .tell (.entry ⟨kind, name, depth, .ofList details⟩)

/-- Remembers the message of the fault that `x` fails with. -/
def remembering {α : Type} (x : Evaluation α) : Evaluation α :=
  tryCatch x fun fault => do
    modify fun session => { session with raised := some fault.message }
    throw fault

/-- Raises a fault whatever the policy. -/
def raise {α : Type} (severity : Severity) (fault : Fault) : Evaluation α := do
  let depth := (← get).active.depth
  remembering (Policy.raise severity fault depth)

end Evaluation

namespace Setup

open Evaluation

variable (setup : Setup)

/-- The verbosity of a debug message of the given level. -/
def debugVerbosity (level : UInt8) : Verbosity :=
  if level ≤ 1 then .info else if level = 2 then .debug else .trace

/-- Tells a debug message if the settings ask for its level. -/
def debug {σ ε : Type} (level : UInt8) (text : String) : Journaled σ ε Unit :=
  if level ≤ setup.settings.debugLevel then .tell (.message (debugVerbosity level) text)
  else pure ()

/-- Puts a fault to the policy. -/
def report (severity : Severity) (fault : Fault) : Evaluation Unit := do
  let depth := (← get).active.depth
  remembering (setup.policy.report severity fault depth)

/-! ## Handlers -/

/-- Answers a request of a handler whose section has the state in the second component. -/
def answer (nested : Evaluator) :
    (request : Request) → Journaled (Session × SectionState) HandlerError request.Answer
  | .state => do return (← get).2
  | .setState state => modify fun s => (s.1, state)
  | .evaluate name => .onFirst (.attempt (nested name))
  | .report severity fault => .onFirst (.attempt (setup.report severity fault))
  | .record kind name details => do
    .tell (.custom ⟨kind, name, (← get).1.active.depth, .ofList details⟩)
  | .depth => do return (← get).1.active.depth
  | .settings => pure setup.settings
  | .debug level text => setup.debug level text
  | .note text => .tell (.note text)

def run {α : Type} (nested : Evaluator) :
    Program α → Journaled (Session × SectionState) HandlerError α
  | .done a => pure a
  | .fail error => throw error
  | .ask request next => setup.answer nested request >>= fun answer => run nested (next answer)

@[simp] theorem run_done {α : Type} (nested : Evaluator) (a : α) :
    setup.run nested (.done a) = pure a := rfl

@[simp] theorem run_fail {α : Type} (nested : Evaluator) (error : HandlerError) :
    setup.run nested (.fail error : Program α) = throw error := rfl

theorem run_ask {α : Type} (nested : Evaluator) (request : Request)
    (next : request.Answer → Program α) :
    setup.run nested (.ask request next) =
      setup.answer nested request >>= fun answer => setup.run nested (next answer) := rfl

/-- A program that goes on with another is run by running one after the other. -/
theorem run_bind {α β : Type} (nested : Evaluator) (program : Program α) (next : α → Program β) :
    setup.run nested (program >>= next) =
      setup.run nested program >>= fun a => setup.run nested (next a) := by
  change setup.run nested (program.bind next) = _
  induction program with
  | done a => exact (Journaled.pure_bind a fun a => setup.run nested (next a)).symm
  | fail error => rfl
  | ask request rest ih =>
    rw [run_ask, Journaled.bind_assoc]
    exact congrArg _ (funext ih)

/-- Runs the handler of an option on the state of its section. What a handler did to the state
before it failed stays done. -/
def runHandler (nested : Evaluator) (handler : Handler) (site : OptionSite) (state : SectionState) :
    Evaluation (Except HandlerError Unit × SectionState) := fun session =>
  let outcome := setup.run nested (handler site) (session, state)
  ⟨.ok (outcome.result, outcome.state.2), outcome.state.1, outcome.journal⟩

/-- What becomes of a handler's error: a fault that has been raised before goes on its way, any
other error is put to the policy. -/
def settle (site : OptionSite) (error : HandlerError) : Evaluation Unit := do
  match error.fault? with
  | some fault =>
    if (← get).raised = some fault.message then throw fault
    else setup.report fault.severity fault
  | none =>
    let fault := Fault.handlerExecution site.sectionName site.rawKey site.value
      error.message error.causes
    setup.report fault.severity fault

/-- The trace name of an option that the generic handler takes. -/
def genericOperation : String := "<generic>"

def dispatch (nested : Evaluator) (handler : Handler) (site : OptionSite) (state : SectionState) :
    Evaluation SectionState := do
  let operation := site.key.operation.getD genericOperation
  let depth := (← get).active.depth
  record depth .handlerEntry operation [("section", site.sectionName), ("key", site.rawKey)]
  let (result, state) ← setup.runHandler nested handler site state
  match result with
  | .ok () =>
    record depth .handlerExit operation [("status", "ok")]
  | .error error =>
    record depth .handlerExit operation [("status", "error")]
    setup.settle site error
  return state

/-! ## Options and sections -/

/-- Assigns an option that no handler takes. -/
def assign (key value : String) (state : SectionState) : Evaluation SectionState := do
  record (← get).active.depth .keyMatch key [("value", value)]
  return state.set key value

def evalOption (nested : Evaluator) (sectionName stored value : String) (state : SectionState) :
    Evaluation SectionState :=
  match setup.registry.resolveKey sectionName stored with
  | .error fault => do
    setup.report fault.severity fault
    return state
  | .ok resolved =>
    match resolved.handler <|> setup.registry.generic with
    | some handler =>
      setup.dispatch nested handler
        ⟨sectionName, (StoredKey.split stored).1, value, resolved.key⟩ state
    | none => assign resolved.key.parameter value state

def evalOptions (nested : Evaluator) (sectionName : String) :
    List (String × String) → SectionState → Evaluation SectionState
  | [], state => pure state
  | option :: rest, state =>
    setup.evalOption nested sectionName option.1 option.2 state >>=
      evalOptions nested sectionName rest

/-- Evaluates the options of a section; none if the section is absent and that is passed over. -/
def evalBody (nested : Evaluator) (name : String) : Evaluation (Option SectionState) :=
  match setup.document.options? name with
  | some options => some <$> setup.evalOptions nested name options.entries ∅
  | none => do
    let fault := Fault.sectionNotFound name
    setup.report fault.severity fault
    return none

/-- Runs `x` with `name` as the innermost active section. -/
def within {α : Type} (name : String) (active : ActiveSections) (x : Evaluation α) :
    Evaluation α := do
  modify fun session => { session with active }
  let result ← .attempt x
  modify fun session => { session with active := session.active.pop name }
  .ofExcept result

/-- Leaves a section: its state is cached if the section exists. -/
def finish (name : String) (depth : Nat) : Option SectionState → Evaluation SectionState
  | some state => do
    record depth .sectionExit name [("keys", state.size.repr)]
    modify fun session => { session with cache := session.cache.insert name state }
    return state
  | none => do
    record depth .sectionExit name [("keys", "0")]
    return ∅

def visit (nested : Evaluator) : Evaluator := fun name => do
  let session ← get
  match session.cache.get? name with
  | some state =>
    setup.debug 3 ("[" ++ name ++ "] served from cache")
    return state
  | none =>
    match session.active.push name with
    | .error fault => raise fault.severity fault
    | .ok active =>
      let depth := active.depth
      let state? ← within name active do
        record depth .sectionEntry name []
        setup.debug 1 ("[" ++ name ++ "] parsing (depth " ++ depth.repr ++ ")")
        setup.evalBody nested name
      finish name depth state?

/-- Evaluates a section with requests nested at most `budget` deep. -/
def evaluateWithin : Nat → Evaluator
  | 0 => fun name => throw (.circularReference name [])
  | budget + 1 => setup.visit (evaluateWithin budget)

/-- Evaluates a section and, as far as its handlers request them, others. -/
def evaluate : Evaluator := setup.evaluateWithin (setup.document.size + 1)

end Setup

end IniCompose
