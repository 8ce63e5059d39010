import IniCompose.Document.Basic
import IniCompose.Handler

/-!
# Registries

The handlers of the operations, grouped by the normal form of the operation. An operation that is
registered more than once is ambiguous. Option keys are resolved against a registry.
-/
namespace IniCompose

/-- How many handlers are registered for a word. -/
inductive Candidates
  | none
  | one (handler : Handler)
  | several (count : Nat)

def Candidates.inspect : Candidates → String
  | none => "Generic"
  | one _ => "Handler(..)"
  | several count => "Ambiguous(" ++ count.repr ++ ")"

structure Registry where
  handlers : OrderedMap (List Handler) := ∅
  /-- Takes the options without operation, instead of their being assigned. -/
  generic : Option Handler := none

namespace Registry

/-- The registry without any operation. -/
def bare : Registry := {}

def register (registry : Registry) (operation : String) (handler : Handler) : Registry :=
  let name := Operation.normalForm operation
  { registry with
    handlers := registry.handlers.insert name (registry.handlers.getD name [] ++ [handler]) }

/-- The registry that knows `use`. -/
def standard : Registry := bare.register "use" importSection

def withGeneric (registry : Registry) (handler : Handler) : Registry :=
  { registry with generic := some handler }

def candidates (registry : Registry) (token : String) : Candidates :=
  match registry.handlers.getD (Operation.normalForm token) [] with
  | [] => .none
  | [handler] => .one handler
  | handlers => .several handlers.length

def contains (registry : Registry) (operation : String) : Bool :=
  registry.handlers.contains (Operation.normalForm operation)

/-- The normal forms of the registered operations, in the order of their first registration. -/
def operations (registry : Registry) : List String := registry.handlers.keys

def inspect (registry : Registry) : String :=
  Text.inspectRecord "HandlerRegistry"
    [("handlers", Text.inspectMap
        (registry.handlers.entries.map fun entry => (entry.1, entry.2.length.repr))),
     ("generic", Text.inspectBool registry.generic.isSome)]

/-- The form of a registry that is still being filled. -/
def inspectDraft (registry : Registry) : String :=
  Text.inspectRecord "HandlerRegistryBuilder" [("registry", registry.inspect)]

end Registry

/-! ## Resolving option keys

The first word of a key is its operation if exactly one handler is registered for it; the rest is
the parameter, from which one level of matching quotes is removed. A key whose first word names no
operation is kept whole. -/

/-- How a text stands to one kind of quotation mark. -/
inductive Quotation
  | plain
  | quoted (inner : List Char)
  | unbalanced
  deriving DecidableEq

def Quotation.ofChars (quote : Char) (text : List Char) : Quotation :=
  let opened := text.head? = some quote
  let closed := 1 < text.length ∧ text.getLast? = some quote
  if opened ∧ closed then .quoted (Text.trim text.tail.dropLast)
  else if opened ∨ closed then .unbalanced
  else .plain

/-- Removes one level of double or else of single quotes; none if a mark lacks its partner. -/
def unquote (text : List Char) : Option (List Char) :=
  match Quotation.ofChars '"' text with
  | .quoted inner => some inner
  | .unbalanced => none
  | .plain =>
    match Quotation.ofChars '\'' text with
    | .quoted inner => some inner
    | .unbalanced => none
    | .plain => some text

/-- Why a key cannot be resolved. -/
inductive KeyError
  | empty
  | unbalancedQuote
  | ambiguous (operation : String) (count : Nat)
  deriving DecidableEq

def KeyError.fault (sectionName key : String) : KeyError → Fault
  | empty => .optionFormat sectionName key "option key is empty"
  | unbalancedQuote => .optionFormat sectionName key "unbalanced quote"
  | ambiguous operation count => .ambiguousHandler sectionName key operation count

/-- A key split into its parts, and the handler registered for its operation. -/
structure ResolvedKey where
  key : OptionKey
  handler : Option Handler

def ResolvedKey.inspect (resolved : ResolvedKey) : String :=
  Text.inspectRecord "SplitKey"
    [("parsed", resolved.key.inspect), ("handler", Text.inspectBool resolved.handler.isSome)]

namespace Registry

/-- Resolves the trimmed text of a key. -/
def resolveText (registry : Registry) (key : List Char) (suffix : Option String) :
    Except KeyError ResolvedKey :=
  let token := String.ofList (key.takeWhile (!Text.isBlank ·))
  let rest := Text.trim (key.dropWhile (!Text.isBlank ·))
  if key.isEmpty then .error .empty
  else
    match registry.candidates token with
    | .none => .ok ⟨⟨none, .ofList key, suffix⟩, none⟩
    | .several count => .error (.ambiguous (Operation.normalForm token) count)
    | .one handler =>
      match unquote rest with
      | none => .error .unbalancedQuote
      | some parameter =>
        .ok ⟨⟨some (Operation.normalForm token), .ofList parameter, suffix⟩, some handler⟩

/-- Resolves a stored key of a section. -/
def resolveKey (registry : Registry) (sectionName stored : String) : Except Fault ResolvedKey :=
  let parts := StoredKey.split stored
  let key := Text.trim parts.1.toList
  (registry.resolveText key parts.2).mapError (KeyError.fault sectionName (.ofList key))

end Registry

end IniCompose
