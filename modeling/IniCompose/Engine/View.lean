import IniCompose.Document.Format
import IniCompose.Evaluation

/-!
# Engines

An engine evaluates the sections of a document on request and keeps the results until the document
or the settings change. It also keeps the trace of the last evaluation that was not answered from
the kept results, whether it succeeded or not.
-/
namespace IniCompose

structure Engine extends Setup where
  cache : OrderedMap SectionState := ∅
  trace : Trace := []

namespace Engine

/-- An engine over a document; settings that describe no policy are refused. -/
def ofDocument (document : Document) (registry : Registry) (settings : Settings) :
    Except Fault Engine :=
  match h : settings.policy with
  | .ok policy => .ok { document, registry, settings, policy, policy_eq := h }
  | .error fault => .error fault

/-- Forgets the kept results. -/
def invalidate (engine : Engine) : Engine := { engine with cache := ∅ }

def setDocument (engine : Engine) (document : Document) : Engine :=
  { engine with document }.invalidate

/-- Changes the settings; settings that describe no policy are refused. -/
def setSettings (engine : Engine) (settings : Settings) : Except Fault Engine :=
  match h : settings.policy with
  | .ok policy =>
    .ok { engine with settings, policy, policy_eq := h }.invalidate
  | .error fault => .error fault

/-- Replaces the document by the files at `paths`, unless one of them cannot be read. -/
def loadPaths (files : Files) (paths : List String) : Journaled Engine Fault Unit := do
  let document ← Document.loadAll files paths
  modify (·.setDocument document)

def isCached (engine : Engine) (name : String) : Bool := engine.cache.contains name

/-- The sections of the document whose results are kept, in file order. -/
def cachedNames (engine : Engine) : List String := engine.document.names.filter engine.isCached

/-- Runs an evaluation in a session of its own and keeps its results and its trace. -/
def inSession {α : Type} (x : Setup → Evaluation α) : Journaled Engine Fault α := fun engine =>
  let outcome := x engine.toSetup { cache := engine.cache }
  ⟨outcome.result,
    { engine with cache := outcome.state.cache, trace := outcome.journal.trace },
    outcome.journal⟩

/-- The state of a section, evaluated unless it is kept. -/
def evaluate (name : String) : Journaled Engine Fault SectionState := do
  match (← get).cache.get? name with
  | some state => return state
  | none => inSession (·.evaluate name)

/-- Evaluates every section in file order, in one session, up to the first fault. -/
def evaluateAll : Journaled Engine Fault Unit :=
  inSession fun setup => setup.document.names.forM fun name => do
    let _ ← setup.evaluate name

/-! ## Reading results

Look-ups in evaluated sections. They evaluate the section they look into, and find its options with
all imports and overrides applied. -/

def hasSection (engine : Engine) (name : String) : Bool := engine.document.hasSection name

/-- Whether an evaluated section has an option; an absent section has none and is not evaluated. -/
def hasOption (name key : String) : Journaled Engine Fault Bool := do
  if (← get).hasSection name then return (← evaluate name).contains key
  else return false

def value? (name key : String) : Journaled Engine Fault (Option String) :=
  return (← evaluate name).get? key

def valueD (name key default : String) : Journaled Engine Fault String :=
  return (← value? name key).getD default

def keys (name : String) : Journaled Engine Fault (List String) :=
  return (← evaluate name).options.keys

def items (name : String) : Journaled Engine Fault (List (String × String)) :=
  return (← evaluate name).options.entries

end Engine

end IniCompose
