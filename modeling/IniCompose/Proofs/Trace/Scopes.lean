import IniCompose.Trace

/-!
# Brackets of a trace

A trace enters and leaves sections and starts and ends handlers. It is read with the entries at
hand that have opened a bracket and wait for the one that closes it.
-/
namespace IniCompose.Trace

/-! ## Handlers -/

/-- The entries for starts and ends of handlers. -/
def handlers (trace : Trace) : Trace :=
  trace.filter fun entry => entry.kind = .handlerEntry ∨ entry.kind = .handlerExit

/-- Every start of a handler is matched by an end of the same operation at the same depth, and what
is between them is balanced. -/
inductive Balanced : Trace → Prop
  | nil : Balanced []
  | append {first second} : Balanced first → Balanced second → Balanced (first ++ second)
  | bracket {start inner finish} : start.kind = .handlerEntry → finish.kind = .handlerExit →
    finish.name = start.name → finish.depth = start.depth → Balanced inner →
    Balanced (start :: inner ++ [finish])

@[simp] theorem handlers_nil : handlers [] = [] := rfl

@[simp] theorem handlers_append (first second : Trace) :
    handlers (first ++ second) = first.handlers ++ second.handlers := by
  simp [handlers]

theorem handlers_cons_of_ne {entry : Entry} (hstart : entry.kind ≠ .handlerEntry)
    (hfinish : entry.kind ≠ .handlerExit) (rest : Trace) :
    handlers (entry :: rest) = rest.handlers := by
  simp [handlers, hstart, hfinish]

theorem handlers_bracket {start finish : Entry} (hstart : start.kind = .handlerEntry)
    (hfinish : finish.kind = .handlerExit) (inner : Trace) :
    handlers (start :: inner ++ [finish]) = start :: inner.handlers ++ [finish] := by
  simp [handlers, hstart, hfinish]

/-! ## Reading -/

/-- How many of the entries enter a section. -/
def sections (opened : Trace) : Nat := opened.countP fun entry => entry.kind = .sectionEntry

/-- The brackets that stay open when an entry closes the innermost one, which is of a kind and has
the name and the depth of the entry. -/
def close (kind : Kind) (entry : Entry) : Trace → Option Trace
  | [] => none
  | first :: rest =>
    if first.kind = kind ∧ first.name = entry.name ∧ first.depth = entry.depth ∧
      entry.depth = sections (first :: rest) then some rest
    else none

/-- The brackets that are open after an entry, innermost first; none if the entry does not fit. Its
depth is the number of open sections, its own counted. -/
def advance (opened : Trace) (entry : Entry) : Option Trace :=
  match entry.kind with
  | .sectionEntry | .handlerEntry =>
    if entry.depth = sections (entry :: opened) then some (entry :: opened) else none
  | .sectionExit => close .sectionEntry entry opened
  | .handlerExit => close .handlerEntry entry opened
  | .keyMatch | .warning => if entry.depth = opened.sections then some opened else none

/-- The brackets that are open after a trace. -/
def scan (trace opened : Trace) : Option Trace := trace.foldlM advance opened

/-- The ends of the handlers that are open, each with an error. -/
def unwind (opened : Trace) : Trace :=
  opened.filterMap fun entry =>
    if entry.kind = .handlerEntry then
      some ⟨.handlerExit, entry.name, entry.depth, .ofList [("status", "error")]⟩
    else none

variable {opened middle : Trace} {entry start : Entry}

theorem sections_cons (entry : Entry) (opened : Trace) :
    sections (entry :: opened) = opened.sections + if entry.kind = .sectionEntry then 1 else 0 := by
  simp [sections, List.countP_cons]

@[simp] theorem scan_nil (opened : Trace) : scan [] opened = some opened := rfl

theorem scan_cons (entry : Entry) (rest opened : Trace) :
    scan (entry :: rest) opened = (advance opened entry).bind rest.scan := rfl

theorem scan_append (first second opened : Trace) :
    scan (first ++ second) opened = (first.scan opened).bind second.scan :=
  List.foldlM_append

theorem scan_append_of_some {first : Trace} (h : first.scan opened = some middle)
    (second : Trace) : scan (first ++ second) opened = second.scan middle := by
  rw [scan_append, h, Option.bind_some]

/-- An entry that opens a bracket. -/
theorem scan_open (hkind : entry.kind = .sectionEntry ∨ entry.kind = .handlerEntry)
    (hdepth : entry.depth = sections (entry :: opened)) (rest : Trace) :
    scan (entry :: rest) opened = rest.scan (entry :: opened) := by
  rcases hkind with hkind | hkind <;> rw [scan_cons, advance, hkind, if_pos hdepth] <;> rfl

/-- An entry that closes the innermost bracket. -/
theorem scan_close
    (hkind : start.kind = .sectionEntry ∧ entry.kind = .sectionExit ∨
      start.kind = .handlerEntry ∧ entry.kind = .handlerExit)
    (hname : start.name = entry.name) (hdepth : start.depth = entry.depth)
    (hsections : entry.depth = sections (start :: opened)) :
    scan [entry] (start :: opened) = some opened := by
  rcases hkind with ⟨hstart, hkind⟩ | ⟨hstart, hkind⟩ <;>
    simp [scan_cons, advance, close, hkind, hstart, hname, hdepth, hsections]

/-- An entry that neither opens nor closes a bracket. -/
theorem scan_leaf (hkind : entry.kind = .keyMatch ∨ entry.kind = .warning)
    (hdepth : entry.depth = opened.sections) : scan [entry] opened = some opened := by
  rcases hkind with hkind | hkind <;> simp [scan_cons, advance, hkind, hdepth]

@[simp] theorem unwind_nil : unwind [] = [] := rfl

@[simp] theorem unwind_append (first second : Trace) :
    unwind (first ++ second) = first.unwind ++ second.unwind := by
  simp [unwind]

end IniCompose.Trace
