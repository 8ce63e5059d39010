import IniCompose.Proofs.Composition.Expansion
import IniCompose.Proofs.OrderedMap.Order

/-!
# Merging states

States form a monoid under merging, and a state that was made by assignments stands for them: to
merge it is to assign them again. So it does not matter whether an import is replayed option by
option, merged on its own or shared by several sections. However a state is edited, its keys stay
distinct, and they stand in the order of their first assignment since they were removed last.
-/
namespace IniCompose

namespace OrderedMap

variable {α : Type} {m : OrderedMap α}

/-- Writing what is there already changes nothing. -/
theorem insert_of_get? {key : String} {value : α} (h : m.get? key = some value) :
    m.insert key value = m := by
  have hmem : key ∈ m.keys := by
    rw [← contains_iff_mem_keys, contains, h]
    rfl
  have hkeys : (m.insert key value).keys = m.keys := by rw [keys_insert, if_pos hmem]
  refine ext_get? hkeys fun k _ => ?_
  grind [get?_insert]

theorem insertAll_of_get? {entries : List (String × α)}
    (h : ∀ entry ∈ entries, m.get? entry.1 = some entry.2) : m.insertAll entries = m := by
  induction entries with
  | nil => rfl
  | cons entry rest ih =>
    obtain ⟨hfirst, hrest⟩ := List.forall_mem_cons.1 h
    rw [insertAll_cons, insert_of_get? hfirst, ih hrest]

/-- A map that is written into itself stays as it is. -/
theorem insertAll_entries_self (m : OrderedMap α) : m.insertAll m.entries = m :=
  insertAll_of_get? fun _ hentry => get?_of_mem_entries hentry

end OrderedMap

namespace SectionState

/-! ## The laws of merging -/

theorem ext_parts {state other : SectionState} (hoptions : state.options = other.options)
    (hactions : state.actions = other.actions) : state = other := by
  cases state
  cases other
  simp_all

theorem merge_assoc (a b c : SectionState) : (a.merge b).merge c = a.merge (b.merge c) :=
  ext_parts (OrderedMap.insertAll_entries_insertAll _ _ _).symm (List.append_assoc _ _ _)

theorem empty_merge (a : SectionState) : (∅ : SectionState).merge a = a :=
  ext_parts (OrderedMap.ofList_entries a.options) (List.nil_append _)

/-- The options of a state that has been merged are all there. -/
theorem options_merge_merge (a b : SectionState) :
    ((a.merge b).merge b).options = (a.merge b).options := by
  change (a.options.insertAll b.options.entries).insertAll b.options.entries = _
  rw [← OrderedMap.insertAll_entries_insertAll, OrderedMap.insertAll_entries_self]
  rfl

/-- Assigns in order. -/
def setAll (state : SectionState) (assignments : List (String × String)) : SectionState :=
  assignments.foldl (fun state assignment => state.set assignment.1 assignment.2) state

theorem setAll_eq_applyAll (state : SectionState) (assignments : List (String × String)) :
    state.setAll assignments =
      state.applyAll (assignments.map fun assignment => .assign assignment.1 assignment.2) := by
  simp [setAll, applyAll, List.foldl_map, apply]

/-- Assignments are replayed by merging what they make of nothing. -/
theorem merge_setAll (state : SectionState) (assignments : List (String × String)) :
    state.merge ((∅ : SectionState).setAll assignments) = state.setAll assignments := by
  rw [setAll_eq_applyAll, setAll_eq_applyAll]
  exact merge_replay state _

/-! ## Edits -/

inductive Edit
  | set (key value : String)
  | remove (key : String)
  | merge (other : SectionState)

def edit (state : SectionState) : Edit → SectionState
  | .set key value => state.set key value
  | .remove key => state.remove key
  | .merge other => state.merge other

def editAll (state : SectionState) (edits : List Edit) : SectionState := edits.foldl edit state

/-- What an edit does to the options: a merge assigns the options of the other state in order. -/
def Edit.changes : Edit → List (OrderedMap.Change String)
  | set key value => [.put key value]
  | remove key => [.erase key]
  | merge other => OrderedMap.puts other.options.entries

/-- What has been done to the options of a state that is edited, the options from the start being
the first to be assigned. -/
def history (state : SectionState) (edits : List Edit) : List (OrderedMap.Change String) :=
  OrderedMap.puts state.options.entries ++ edits.flatMap Edit.changes

theorem options_edit (state : SectionState) (next : Edit) :
    (state.edit next).options = state.options.changeAll next.changes := by
  cases next with
  | set key value => rfl
  | remove key => rfl
  | merge other => exact (OrderedMap.changeAll_puts _ _).symm

theorem options_editAll (state : SectionState) (edits : List Edit) :
    (state.editAll edits).options = state.options.changeAll (edits.flatMap Edit.changes) := by
  induction edits generalizing state with
  | nil => rfl
  | cons next rest ih =>
    rw [List.flatMap_cons, OrderedMap.changeAll_append, ← options_edit, ← ih]
    rfl

/-- The keys of an edited state are in the order of its history. -/
theorem orderedBy_history (state : SectionState) (edits : List Edit) :
    (state.editAll edits).options.OrderedBy (state.history edits) := by
  rw [options_editAll]
  exact state.options.orderedBy_puts_entries.changeAll _

/-- Merging is associative with the empty state as neutral element, it replays assignments, and
merging a state again leaves the options as they are. Whatever edits are made, the keys stay
distinct, and they are in the order of their first assignment since their last removal. -/
theorem merge_replays_history :
    (∀ a b c : SectionState, (a.merge b).merge c = a.merge (b.merge c)) ∧
    (∀ a : SectionState, (∅ : SectionState).merge a = a ∧ a.merge ∅ = a) ∧
    (∀ a b : SectionState, ((a.merge b).merge b).options = (a.merge b).options) ∧
    (∀ (a : SectionState) (assignments : List (String × String)),
      a.setAll assignments = a.merge ((∅ : SectionState).setAll assignments)) ∧
    ∀ (a : SectionState) (edits : List Edit),
      (a.editAll edits).options.keys.Nodup ∧
        (a.editAll edits).options.OrderedBy (a.history edits) := by
  refine ⟨merge_assoc, fun a => ⟨empty_merge a, merge_empty a⟩, options_merge_merge, ?_, ?_⟩
  · intro a assignments
    exact (merge_setAll a assignments).symm
  · intro a edits
    exact ⟨OrderedMap.keys_nodup _, orderedBy_history a edits⟩

/-- A key that is removed and assigned again comes last, one that is assigned again does not. -/
example :
    (editAll ∅ [.set "a" "1", .set "b" "2", .remove "a", .set "a" "3",
      .merge ⟨.ofList [("b", "4")], []⟩]).options.entries = [("b", "4"), ("a", "3")] := by decide

end SectionState

end IniCompose
