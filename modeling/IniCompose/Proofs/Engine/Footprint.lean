import IniCompose.Proofs.Engine.Steps
import IniCompose.Proofs.Evaluation.Entries
import IniCompose.Proofs.Evaluation.Nesting

/-!
# The footprint of a run

A run reads no sections but those that it enters. Over another document that gives the entered
sections the same options, or leaves them absent too, it goes through the same steps: it has the
same result, reports the same and keeps the same states, whatever the handlers request and recover
from, and however many sections the documents have besides.
-/
namespace IniCompose

/-- The names of the sections that the engine has entered, which may repeat. -/
def Journal.entered (journal : Journal) : List String :=
  (journal.engineTrace.filterKind .sectionEntry).map Trace.Entry.name

@[simp] theorem Journal.entered_append (first second : Journal) :
    Journal.entered (first ++ second) = first.entered ++ second.entered := by
  simp [entered, Trace.filterKind]

namespace Setup

@[simp] theorem entered_opening (setup : Setup) (name : String) (depth : Nat) :
    (setup.opening name depth).entered = [name] := by
  simp [Journal.entered, Trace.filterKind]

/-! ## Two documents -/

/-- The setup for another document. -/
def withDocument (setup : Setup) (document : Document) : Setup := { setup with document }

/-- A section on which the documents differ has been entered. -/
def Crossed (setup : Setup) (document : Document) (journal : Journal) : Prop :=
  ∃ name ∈ journal.entered, document.options? name ≠ setup.document.options? name

/-- Equal runs, until they enter a section on which the documents differ. -/
def beyondDocument (setup : Setup) (document : Document) : Comparison :=
  .same (fun _ => True) (setup.Crossed document)

variable {setup : Setup} {document : Document}

theorem Crossed.append {j k : Journal}
    (h : setup.Crossed document j ∨ setup.Crossed document k) :
    setup.Crossed document (j ++ k) := by
  rcases h with ⟨name, hname, hne⟩ | ⟨name, hname, hne⟩ <;> exact ⟨name, by simp [hname], hne⟩

/-- Nothing but entering a section depends on the document. -/
theorem laws_beyondDocument (setup : Setup) (document : Document) :
    (setup.beyondDocument document).Laws setup (setup.withDocument document) fun _ => True :=
  have hsteady : setup.Steady (fun _ => True) fun _ => True :=
    ⟨fun _ _ _ _ => trivial, fun _ _ _ => trivial⟩
  have hlaws : (setup.beyondDocument document).Laws setup setup fun _ => True :=
    Comparison.same_laws hsteady .append
  { hlaws with registry := rfl }

section

variable {nested nested' : Evaluator}
  (hnested : ∀ name s, (setup.beyondDocument document).Matches
    (setup.beyondDocument document).related (nested name s) (nested' name s))

include hnested

theorem matches_visit (name : String) (s : Session) :
    (setup.beyondDocument document).Matches (setup.beyondDocument document).related
      (setup.visit nested name s) ((setup.withDocument document).visit nested' name s) := by
  by_cases hcrossed : setup.Crossed document (setup.visit nested name s).journal
  · exact .inl hcrossed
  suffices (setup.withDocument document).visit nested' name s = setup.visit nested name s by
    rw [this]
    exact Comparison.same_matches fun _ => trivial
  cases hcache : s.cache.get? name with
  | some state =>
    rw [visit_of_cached setup hcache, visit_of_cached _ hcache]
    rfl
  | none =>
    cases hpush : s.active.push name with
    | error fault => rw [visit_of_active setup hcache hpush, visit_of_active _ hcache hpush]
    | ok active =>
      obtain ⟨last, hjournal, -⟩ := setup.journal_visit_of_entered hcache hpush nested
      rw [hjournal] at hcrossed
      have hoptions : document.options? name = setup.document.options? name := by
        by_contra hne
        exact hcrossed ⟨name, by simp, hne⟩
      have hquiet :
          ¬ setup.Crossed document (setup.evalBody nested name { s with active }).journal :=
        fun hbody => hcrossed (.append (.inl (.append (.inr hbody))))
      have hasked (target : String) {t t' : Session}
          (ht : (setup.beyondDocument document).related t t') :
          (setup.beyondDocument document).Matches (setup.beyondDocument document).related
            (nested target t) (nested' target t') := by
        obtain ⟨rfl, -⟩ := ht
        exact hnested target t
      have hentered : (setup.beyondDocument document).related { s with active } { s with active } :=
        ⟨rfl, trivial⟩
      have hbody := (laws_beyondDocument setup document).evalBody hasked (Registry.only_true _)
        hoptions hentered
      obtain ⟨heq, -⟩ := hbody.eq_of_same hquiet
      rw [visit_of_entered setup hcache hpush, visit_of_entered _ hcache hpush, ← heq]
      rfl

end

/-- Induction on the budget: the runs go through the same steps. -/
theorem matches_evaluateWithin (budget : Nat) (name : String) (s : Session) :
    (setup.beyondDocument document).Matches (setup.beyondDocument document).related
      (setup.evaluateWithin budget name s)
      ((setup.withDocument document).evaluateWithin budget name s) := by
  induction budget generalizing name s with
  | zero => exact Comparison.same_matches fun _ => trivial
  | succ budget ih => exact matches_visit ih name s

/-! ## As many nested requests as it takes -/

theorem evaluateWithin_add (setup : Setup) (budget more : Nat) :
    setup.evaluateWithin (budget + more) = setup.visit^[budget] (setup.evaluateWithin more) := by
  induction budget with
  | zero => simp
  | succ budget ih =>
    rw [Function.iterate_succ_apply', ← ih, Nat.add_right_comm]
    rfl

/-- A budget that leaves room for every nesting is as good as any greater one. -/
theorem Room.evaluateWithin_of_le {budget more : Nat} {s : Session} (h : setup.Room budget s)
    (hle : budget ≤ more) (name : String) :
    setup.evaluateWithin more name s = setup.evaluateWithin budget name s := by
  obtain ⟨extra, rfl⟩ := Nat.exists_eq_add_of_le hle
  rw [evaluateWithin_add]
  exact iterate_visit_eq h _ name

/-- Over documents that agree on the sections that the evaluation enters, it is the same. The
documents need not be of one size, and both budgets are as good as the greater one. -/
theorem evaluate_withDocument {name : String} {s : Session} (hactive : s.active = ∅)
    (h : ∀ entered ∈ (setup.evaluate name s).journal.entered,
      document.options? entered = setup.document.options? entered) :
    (setup.withDocument document).evaluate name s = setup.evaluate name s := by
  have hroom : setup.Room (setup.document.size + 1) s := room_of_inactive hactive
  have hroom' : (setup.withDocument document).Room (document.size + 1) s := room_of_inactive hactive
  let budget := max (setup.document.size + 1) (document.size + 1)
  have hfirst : setup.evaluate name s = setup.evaluateWithin budget name s :=
    (hroom.evaluateWithin_of_le (Nat.le_max_left _ _) name).symm
  have hsecond : (setup.withDocument document).evaluate name s =
      (setup.withDocument document).evaluateWithin budget name s :=
    (hroom'.evaluateWithin_of_le (Nat.le_max_right _ _) name).symm
  rw [hfirst] at h
  rw [hfirst, hsecond]
  have hquiet : ¬ setup.Crossed document (setup.evaluateWithin budget name s).journal := by
    rintro ⟨entered, hentered, hne⟩
    exact hne (h entered hentered)
  exact ((matches_evaluateWithin budget name s).eq_of_same hquiet).1.symm

end Setup

namespace Engine

/-- What a fresh engine makes of a section depends on the sections that it enters, and on nothing
else of the document: over every other document that agrees on these the result, all that is
reported, the trace and the kept states are the same. -/
theorem evaluate_of_agrees {document other : Document} {registry : Registry} {settings : Settings}
    {engine : Engine} (h : ofDocument document registry settings = .ok engine) {name : String}
    (hagrees : ∀ entered ∈ (evaluate name engine).journal.entered,
      other.options? entered = document.options? entered) :
    ∃ engine', ofDocument other registry settings = .ok engine' ∧
      (evaluate name engine').result = (evaluate name engine).result ∧
      (evaluate name engine').journal = (evaluate name engine).journal ∧
      (evaluate name engine').state.trace = (evaluate name engine).state.trace ∧
      (evaluate name engine').state.cache = (evaluate name engine).state.cache := by
  unfold ofDocument at h
  split at h
  · next policy hpolicy =>
    cases h
    have hother : ofDocument other registry settings =
        .ok ⟨⟨other, registry, settings, policy, hpolicy⟩, ∅, []⟩ := by
      unfold ofDocument
      split <;> grind
    refine ⟨_, hother, ?_⟩
    let setup : Setup := ⟨document, registry, settings, policy, hpolicy⟩
    rw [evaluate_of_uncached rfl] at hagrees ⊢
    rw [evaluate_of_uncached rfl]
    have heq : (setup.withDocument other).evaluate name {} = setup.evaluate name {} :=
      Setup.evaluate_withDocument rfl hagrees
    simp only [inSession]
    exact ⟨congrArg Outcome.result heq, congrArg Outcome.journal heq,
      congrArg (·.journal.trace) heq, congrArg (·.state.cache) heq⟩
  · cases h

/-- The registry with an operation that requests a section and goes on whatever the answer is. -/
def attempting : Registry :=
  Registry.standard.register "try" fun site => do
    let _ ← Program.evaluate site.key.parameter

/-- A section that attempts two others. -/
def daring : Options := .ofList [("try B", ""), ("try Ghost", ""), ("k", "1")]

/-- A section that imports the one it is requested by. -/
def circular : Options := .ofList [("use A", "")]

def detached : Document := ⟨.ofList [("A", daring), ("B", circular), ("C", .ofList [("l", "2")])]⟩

/-- The same sections but for one, in another order and among others. -/
def rearranged : Document :=
  ⟨.ofList [("D", ∅), ("B", circular), ("C", .ofList [("l", "3")]), ("E", ∅), ("A", daring)]⟩

/-- Both runs enter an absent section and a cycle, and go on. -/
theorem evaluate_of_agrees_detached :
    ∃ engine engine', ofDocument detached attempting {} = .ok engine ∧
      ofDocument rearranged attempting {} = .ok engine' ∧
      (evaluate "A" engine).journal.entered = ["A", "B", "Ghost"] ∧
      (∀ entered ∈ ["A", "B", "Ghost"],
        rearranged.options? entered = detached.options? entered) ∧
      rearranged.options? "C" ≠ detached.options? "C" ∧
      (evaluate "A" engine').result = (evaluate "A" engine).result ∧
      (evaluate "A" engine').journal = (evaluate "A" engine).journal ∧
      (evaluate "A" engine').state.trace = (evaluate "A" engine).state.trace ∧
      (evaluate "A" engine').state.cache = (evaluate "A" engine).state.cache := by
  have hengine : ofDocument detached attempting {} = .ok _ := rfl
  have hagrees : ∀ entered ∈ ["A", "B", "Ghost"],
      rearranged.options? entered = detached.options? entered := by decide
  obtain ⟨engine', hengine', hsame⟩ := @evaluate_of_agrees _ _ _ _ _ hengine "A" hagrees
  exact ⟨_, engine', hengine, hengine', rfl, hagrees, by decide, hsame⟩

end Engine

end IniCompose
