import IniCompose.Proofs.Text.Json
import IniCompose.Proofs.Trace.Rendering
import IniCompose.Severity

/-!
# What the text of a fault tells

An evaluation remembers a fault by its text alone. The texts of faults begin differently for
different classes, so that the text still tells what the class of the fault is and how severe it is.
Behind that it is made of fixed words, numbers and the texts that it quotes, and it is a single line
exactly if these are.
-/
namespace IniCompose

open Text

namespace Fault

/-! ## Classes -/

/-- The words that the text of a fault begins with. -/
def opening : Fault → String
  | circularReference .. => "Circular"
  | sectionNotFound .. => "Section"
  | optionFormat .. => "Malformed"
  | ambiguousHandler .. => "Operation"
  | handlerExecution .. => "Handler"
  | invalidLevel .. => "Invalid exception"
  | invalidSyntax .. => "Invalid INI"
  | unreadable .. => "IO error reading"
  | invalidSettings .. => "Invalid settings"
  | unwritable .. => "IO error writing"

/-- The openings of all texts, with the classes. -/
def openings : List (String × String) :=
  [("Circular", "circular-reference"), ("Section", "section-not-found"),
   ("Malformed", "option-format"), ("Operation", "ambiguous-handler"),
   ("Handler", "handler-execution"), ("Invalid exception", "invalid-exception-control-level"),
   ("Invalid INI", "invalid-syntax"), ("IO error reading", "io"),
   ("Invalid settings", "settings"), ("IO error writing", "write")]

/-- No opening begins with another one. -/
theorem eq_of_opening_begins : ∀ first ∈ openings, ∀ second ∈ openings,
    first.1.toList <+: second.1.toList → first = second := by
  decide

theorem mem_openings (fault : Fault) : (fault.opening, fault.kind) ∈ openings := by
  cases fault <;> simp [openings, opening, kind]

theorem prefix_append_right {start : List Char} {text : String} (h : start <+: text.toList)
    (more : String) : start <+: (text ++ more).toList := by
  rw [String.toList_append]
  exact h.trans (List.prefix_append _ _)

/-- Pieces of the text are peeled off until the literal is left that holds the opening. -/
theorem opening_prefix_message (fault : Fault) :
    fault.opening.toList <+: fault.message.toList := by
  cases fault with
  | unwritable =>
    refine prefix_append_right ?_ _
    simp [opening]
  | sectionNotFound =>
    iterate 2 refine prefix_append_right ?_ _
    simp [opening]
  | circularReference | invalidLevel | unreadable | invalidSettings =>
    iterate 3 refine prefix_append_right ?_ _
    simp [opening]
  | optionFormat | invalidSyntax =>
    iterate 5 refine prefix_append_right ?_ _
    simp [opening]
  | handlerExecution =>
    iterate 7 refine prefix_append_right ?_ _
    simp [opening]
  | ambiguousHandler =>
    iterate 8 refine prefix_append_right ?_ _
    simp [opening]

/-- Faults with the same text are of the same class. -/
theorem kind_eq_of_message_eq {fault other : Fault} (h : fault.message = other.message) :
    fault.kind = other.kind := by
  have hfirst := fault.opening_prefix_message
  have hsecond := other.opening_prefix_message
  rw [h] at hfirst
  have hsame : (fault.opening, fault.kind) = (other.opening, other.kind) := by
    obtain hprefix | hprefix := List.prefix_or_prefix_of_prefix hfirst hsecond
    · exact eq_of_opening_begins _ fault.mem_openings _ other.mem_openings hprefix
    · exact (eq_of_opening_begins _ other.mem_openings _ fault.mem_openings hprefix).symm
  exact congrArg Prod.snd hsame

theorem severity_eq_of_kind (fault : Fault) :
    fault.severity =
      if fault.kind = "circular-reference" ∨ fault.kind = "ambiguous-handler" then .critical
      else if fault.kind = "option-format" then .minor
      else .serious := by
  cases fault <;> rfl

/-- Faults with the same text are equally severe. -/
theorem severity_eq_of_message_eq {fault other : Fault} (h : fault.message = other.message) :
    fault.severity = other.severity := by
  rw [fault.severity_eq_of_kind, other.severity_eq_of_kind, kind_eq_of_message_eq h]

end Fault

/-! ## Quotations -/

namespace Text

theorem unbroken_repr (n : Nat) : Unbroken n.repr :=
  (uncontrolled_repr n).notMem (by decide)

theorem unbroken_intercalate_iff {separator : String} (hseparator : Unbroken separator)
    {texts : List String} :
    Unbroken (separator.intercalate texts) ↔ ∀ text ∈ texts, Unbroken text := by
  induction texts with
  | nil => simp [Unbroken]
  | cons first rest ih =>
    cases rest with
    | nil => simp
    | cons second rest =>
      rw [String.intercalate_cons_cons, unbroken_append, unbroken_append, and_iff_left hseparator,
        ih, ← List.forall_mem_cons]

end Text

namespace Fault

/-- The texts that the text of a fault quotes. -/
def quoted : Fault → List String
  | circularReference sectionName chain => sectionName :: chain
  | sectionNotFound sectionName => [sectionName]
  | optionFormat sectionName key detail => [key, sectionName, detail]
  | ambiguousHandler sectionName key operation _ => [operation, key, sectionName]
  | handlerExecution sectionName key value reason _ => [key, sectionName, value, reason]
  | invalidLevel _ _ => []
  | invalidSyntax origin _ detail => [origin, detail]
  | unreadable path error => [path, error.message]
  | invalidSettings origin reason => [origin, reason]
  | unwritable error => [error.message]

theorem unbroken_kind (fault : Fault) : Unbroken fault.kind := by
  cases fault <;> simp +decide [kind]

theorem unbroken_message_iff {fault : Fault} :
    Unbroken fault.message ↔ ∀ text ∈ fault.quoted, Unbroken text := by
  unfold message quoted
  cases fault with
  | circularReference sectionName chain =>
    simp +decide [unbroken_intercalate_iff]
  | _ => simp +decide [unbroken_repr, and_assoc]

end Fault

end IniCompose
