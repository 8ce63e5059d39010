import IniCompose.Trace

/-!
# Journals

A journal lists what a computation reports while it runs, in order: trace entries, messages for the
console, and notes that a handler leaves for its caller. `Journaled σ ε α` is a computation that
may change a state `σ`, may fail with `ε`, and adds to the journal whether it fails or not. The
trace and the console output are views of the journal.
-/
namespace IniCompose

/-- How verbose a reader of messages must be to see one. -/
inductive Verbosity
  | error
  | warn
  | info
  | debug
  | trace
  deriving DecidableEq

inductive Event
  /-- A trace entry of the engine. -/
  | entry (entry : Trace.Entry)
  /-- A trace entry that a handler asked for. -/
  | custom (entry : Trace.Entry)
  | message (verbosity : Verbosity) (text : String)
  | note (text : String)
  deriving DecidableEq

abbrev Journal := List Event

namespace Journal

def trace (journal : Journal) : Trace :=
  journal.filterMap fun
    | .entry entry => some entry
    | .custom entry => some entry
    | _ => none

/-- The trace without the entries that handlers asked for. -/
def engineTrace (journal : Journal) : Trace :=
  journal.filterMap fun
    | .entry entry => some entry
    | _ => none

def notes (journal : Journal) : List String :=
  journal.filterMap fun
    | .note text => some text
    | _ => none

@[simp] theorem trace_nil : trace [] = [] := rfl

@[simp] theorem trace_append (first second : Journal) :
    trace (first ++ second) = first.trace ++ second.trace := by simp [trace]

@[simp] theorem engineTrace_nil : engineTrace [] = [] := rfl

@[simp] theorem engineTrace_append (first second : Journal) :
    engineTrace (first ++ second) = first.engineTrace ++ second.engineTrace := by
  simp [engineTrace]

end Journal

/-- The result of a computation, the state it leaves and what it reported. -/
structure Outcome (σ ε α : Type) where
  result : Except ε α
  state : σ
  journal : Journal

def Journaled (σ ε α : Type) : Type := σ → Outcome σ ε α

namespace Journaled

variable {σ τ ε ε' α β : Type}

def pure (a : α) : Journaled σ ε α := fun s => ⟨.ok a, s, []⟩

/-- Runs `x`, then what follows from its value; a failure of `x` ends the computation. -/
def bind (x : Journaled σ ε α) (next : α → Journaled σ ε β) : Journaled σ ε β := fun s =>
  let first := x s
  match first.result with
  | .ok a =>
    let second := next a first.state
    ⟨second.result, second.state, first.journal ++ second.journal⟩
  | .error e => ⟨.error e, first.state, first.journal⟩

instance : Monad (Journaled σ ε) where
  pure := pure
  bind := bind

instance [Inhabited α] : Inhabited (Journaled σ ε α) := ⟨pure default⟩

/-- Runs `x`, and `recover` on the error of `x` if it fails. -/
def tryCatch (x : Journaled σ ε α) (recover : ε → Journaled σ ε α) : Journaled σ ε α := fun s =>
  let first := x s
  match first.result with
  | .ok _ => first
  | .error e =>
    let second := recover e first.state
    ⟨second.result, second.state, first.journal ++ second.journal⟩

instance : MonadExceptOf ε (Journaled σ ε) where
  throw e := fun s => ⟨.error e, s, []⟩
  tryCatch := tryCatch

instance : MonadStateOf σ (Journaled σ ε) where
  get := fun s => ⟨.ok s, s, []⟩
  set s := fun _ => ⟨.ok (), s, []⟩
  modifyGet f := fun s => ⟨.ok (f s).1, (f s).2, []⟩

def tell (event : Event) : Journaled σ ε Unit := fun s => ⟨.ok (), s, [event]⟩

/-- Gives the failure of `x` as a value; what `x` changed and reported stays. -/
def attempt (x : Journaled σ ε α) : Journaled σ ε' (Except ε α) := fun s =>
  let outcome := x s
  ⟨.ok outcome.result, outcome.state, outcome.journal⟩

def ofExcept : Except ε α → Journaled σ ε α
  | .ok a => pure a
  | .error e => throw e

/-- Runs `x` on the first of two states. -/
def onFirst (x : Journaled σ ε α) : Journaled (σ × τ) ε α := fun s =>
  let outcome := x s.1
  ⟨outcome.result, (outcome.state, s.2), outcome.journal⟩

/-! ## What a step does to the state and the journal -/

theorem pure_apply (a : α) (s : σ) : (Pure.pure a : Journaled σ ε α) s = ⟨.ok a, s, []⟩ := rfl

theorem attempt_apply (x : Journaled σ ε α) (s : σ) :
    (attempt x : Journaled σ ε' (Except ε α)) s =
      ⟨.ok (x s).result, (x s).state, (x s).journal⟩ := rfl

theorem id_map (x : Journaled σ ε α) : id <$> x = x := by
  funext s
  change bind x _ s = _
  unfold bind
  rcases x s with ⟨_ | _, _, _⟩ <;> simp [pure]

theorem pure_bind (a : α) (next : α → Journaled σ ε β) : Pure.pure a >>= next = next a := by
  funext s
  change bind (pure a) next s = _
  simp [bind, pure]

theorem bind_assoc {γ : Type} (x : Journaled σ ε α) (f : α → Journaled σ ε β)
    (g : β → Journaled σ ε γ) : x >>= f >>= g = x >>= fun a => f a >>= g := by
  funext s
  change bind (bind x f) g s = bind x (fun a => bind (f a) g) s
  unfold bind
  rcases x s with ⟨_ | a, s', journal⟩
  · rfl
  · dsimp only
    rcases f a s' with ⟨_ | _, _, _⟩ <;> simp

instance : LawfulMonad (Journaled σ ε) :=
  LawfulMonad.mk' (Journaled σ ε) id_map pure_bind bind_assoc

end Journaled

end IniCompose
