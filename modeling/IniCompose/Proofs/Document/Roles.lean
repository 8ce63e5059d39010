import IniCompose.Proofs.Document.Statements

/-!
# The roles of lines

What a line is in its text depends on the lines before it: an indented line continues a value if the
last statement before it, that is the last line that is neither blank nor a comment nor continues
another one, is an option. The sections that are open and the statements of a text can be read off
the roles.
-/
namespace IniCompose

inductive Role
  | blank
  | comment
  | header (name : List Char)
  | option (text : List Char)
  /-- A further line of the value of an option. -/
  | continuation (text : List Char)
  deriving DecidableEq

namespace Role

def isStatement : Role → Bool
  | header _ | option _ => true
  | _ => false

def isOption : Role → Bool
  | option _ => true
  | _ => false

def header? : Role → Option (List Char)
  | header name => some name
  | _ => none

/-- The last statement among the lines is an option. -/
def inOption (before : List Role) : Bool := (before.filter isStatement).getLast?.any isOption

/-- The name in the last header among the lines. -/
def openSection (before : List Role) : Option (List Char) := (before.filterMap header?).getLast?

/-- The lines up to the next statement: after an option, those that belong to it. -/
def own (after : List Role) : List Role := after.takeWhile fun role => !role.isStatement

@[simp] theorem inOption_nil : inOption [] = false := rfl

theorem inOption_concat (before : List Role) (role : Role) :
    inOption (before ++ [role]) = if role.isStatement then role.isOption else inOption before := by
  cases h : role.isStatement <;> simp [inOption, h]

theorem openSection_concat (before : List Role) (role : Role) :
    openSection (before ++ [role]) = role.header?.or (openSection before) := by
  cases h : role.header? <;> simp [openSection, h]

@[simp] theorem own_nil : own [] = [] := rfl

theorem own_cons (role : Role) (after : List Role) :
    own (role :: after) = if role.isStatement then [] else role :: own after := by
  cases h : role.isStatement <;> simp [own, h]

/-- What belongs to an option does not depend on what follows the next statement. -/
theorem own_append_cons {role : Role} (h : role.isStatement = true) (before after : List Role) :
    own (before ++ role :: after) = own before := by
  induction before <;> grind [own_nil, own_cons]

end Role

/-- The role of a line behind lines of the given roles. -/
def Line.role (before : List Role) : Line → Role
  | .blank => .blank
  | .comment => .comment
  | .content indented text =>
    if indented && Role.inOption before then .continuation text
    else
      match headerName? text with
      | some name => .header name
      | none => .option text

namespace Document

open Role

/-- The roles of lines behind lines of the given roles. -/
def rolesAfter (before : List Role) : List Line → List Role
  | [] => []
  | line :: rest => line.role before :: rolesAfter (before ++ [line.role before]) rest

def roles (lines : List Line) : List Role := rolesAfter [] lines

theorem mem_of_continuation_mem {before : List Role} {lines : List Line} {text : List Char}
    (h : .continuation text ∈ rolesAfter before lines) :
    ∃ indented, .content indented text ∈ lines := by
  induction lines generalizing before with
  | nil => cases h
  | cons line rest ih =>
    rcases List.mem_cons.1 h with hfirst | hrest
    · cases line with
      | blank | comment => cases hfirst
      | content indented other =>
        unfold Line.role at hfirst
        grind
    · obtain ⟨indented, hmem⟩ := ih hrest
      exact ⟨indented, List.mem_cons_of_mem _ hmem⟩

end Document

end IniCompose
