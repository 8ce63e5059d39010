import IniCompose.Proofs.Document.NormalForm
import IniCompose.Proofs.Evaluation.Origins
import IniCompose.Proofs.Fault.Text
import IniCompose.Proofs.Registry.Quoting

/-!
# Line feeds in what a run tells

The names of sections and the keys of options that have been read hold no line feed, but values may
consist of several lines. So where handlers make up no text with a line feed, the text of a fault
holds one exactly if it quotes a value of several lines, or the name of an absent section that was
asked for with a line feed in it. An entry holds one if it is about such a fault, if it assigns a
value of several lines, or if it is about such a section.
-/
namespace IniCompose

open Text

/-- A normal form holds letters, digits and underscores only. -/
theorem Operation.unbroken_normalForm (token : String) : Unbroken (normalForm token) := by
  intro hmem
  rw [normalForm, String.toList_ofList] at hmem
  obtain ⟨c, -, hc⟩ := List.mem_map.1 hmem
  split at hc
  · next hword =>
    rcases eq_or_toNat_add_of_toLower c with hsame | hupper
    · rw [hsame, hc] at hword
      exact absurd hword (by decide)
    · rw [hc] at hupper
      exact absurd hupper (by simp)
  · exact absurd hc (by decide)

namespace Document

variable {document : Document} {name : String} {option : String × String}

theorem HasOption.hasSection (h : document.HasOption name option) :
    document.hasSection name := by
  obtain ⟨options, hoptions, -⟩ := h
  rw [Document.hasSection, OrderedMap.contains, ← options?, hoptions, Option.isSome_some]

theorem Normal.unbroken_name (h : document.Normal) (hname : document.hasSection name) :
    Unbroken name := by
  obtain ⟨entry, hentry, rfl⟩ := List.mem_map.1 (OrderedMap.contains_iff_mem_keys.1 hname)
  exact (h entry hentry).1.newline

theorem Normal.unbroken_key (h : document.Normal) (hoption : document.HasOption name option) :
    Unbroken (StoredKey.split option.1).1 := by
  obtain ⟨options, hoptions, hmem⟩ := hoption
  exact ((h _ (OrderedMap.mem_entries_of_get? hoptions)).2 option hmem).1.newline

end Document

namespace Registry

variable {registry : Registry} {name stored : String}

theorem unbroken_trim {text : String} (h : Unbroken text) :
    Unbroken (.ofList (trim text.toList)) := by
  rw [Unbroken, String.toList_ofList]
  exact fun hmem => h (mem_of_mem_trim hmem)

/-- Only an operation in normal form is called ambiguous. -/
theorem operation_of_resolveText {key : List Char} {suffix : Option String} {operation : String}
    {count : Nat} (h : registry.resolveText key suffix = .error (.ambiguous operation count)) :
    ∃ token, operation = Operation.normalForm token := by
  unfold resolveText at h
  split at h
  · cases h
  · dsimp only at h
    split at h
    · cases h
    · cases h
      exact ⟨_, rfl⟩
    · split at h <;> cases h

/-- A fault about a key quotes the section, the key and the operation in normal form. -/
theorem unbroken_of_resolveKey {fault : Fault}
    (h : registry.resolveKey name stored = .error fault) (hname : Unbroken name)
    (hkey : Unbroken (StoredKey.split stored).1) : Unbroken fault.message := by
  replace hkey := unbroken_trim hkey
  unfold resolveKey at h
  dsimp only at h
  generalize htext : registry.resolveText _ _ = text at h
  cases text with
  | ok resolved => cases h
  | error error =>
    cases h
    refine Fault.unbroken_message_iff.2 ?_
    cases error with
    | empty | unbalancedQuote =>
      simp +decide [KeyError.fault, Fault.quoted, hkey, hname]
    | ambiguous operation count =>
      obtain ⟨token, rfl⟩ := operation_of_resolveText htext
      simp [KeyError.fault, Fault.quoted, hkey, hname, Operation.unbroken_normalForm]

theorem unbroken_parameter {resolved : ResolvedKey}
    (h : registry.resolveKey name stored = .ok resolved) (hnone : resolved.handler = none)
    (hkey : Unbroken (StoredKey.split stored).1) : Unbroken resolved.key.parameter := by
  rcases resolveKey_eq_ok h with ⟨-, -, -, hparameter, -⟩ | ⟨handler, -, hsome, -⟩
  · rw [hparameter]
    exact unbroken_trim hkey
  · simp [hnone] at hsome

end Registry

namespace Setup

variable {setup : Setup} {fault : Fault}

namespace HasSite

variable {site : OptionSite}

theorem unbroken_operation (h : setup.HasSite site) :
    Unbroken (site.key.operation.getD genericOperation) := by
  obtain ⟨-, hresolve⟩ := h
  rcases Registry.resolveKey_eq_ok hresolve with ⟨-, -, hnone, -⟩ | ⟨handler, -, -, hoperation⟩
  · rw [hnone]
    decide
  · rw [hoperation]
    exact Operation.unbroken_normalForm _

theorem unbroken (h : setup.HasSite site) (hnormal : setup.document.Normal) :
    Unbroken site.sectionName ∧ Unbroken site.rawKey := by
  obtain ⟨hoption, -⟩ := h
  exact ⟨hnormal.unbroken_name hoption.hasSection, hnormal.unbroken_key hoption⟩

end HasSite

/-- The faults whose texts quote a value of several lines, or the name of an absent section that was
asked for with a line feed in it. -/
inductive Quotes (setup : Setup) : Fault → Prop
  | value {site reason deeper} : setup.HasSite site → ¬ Unbroken site.value →
    Quotes setup (.handlerExecution site.sectionName site.rawKey site.value reason deeper)
  | name {name} : setup.document.options? name = none → ¬ Unbroken name →
    Quotes setup (.sectionNotFound name)

theorem Quotes.broken (h : setup.Quotes fault) : ¬ Unbroken fault.message := by
  rw [Fault.unbroken_message_iff]
  cases h with
  | value _ hvalue => exact fun hquoted => hvalue (hquoted _ (by simp [Fault.quoted]))
  | name _ hname => exact fun hquoted => hname (hquoted _ (by simp [Fault.quoted]))

theorem unbroken_message_iff (hnormal : setup.document.Normal)
    (h : setup.Arises Unbroken fault) : Unbroken fault.message ↔ ¬ setup.Quotes fault := by
  refine ⟨fun hmessage hquotes => hquotes.broken hmessage, fun hquotes => ?_⟩
  cases h with
  | key hoption hresolve =>
    exact Registry.unbroken_of_resolveKey hresolve
      (hnormal.unbroken_name hoption.hasSection) (hnormal.unbroken_key hoption)
  | @absent name habsent =>
    have hname : Unbroken name := by_contra fun hname => hquotes (.name habsent hname)
    exact Fault.unbroken_message_iff.2 (List.forall_mem_singleton.2 hname)
  | cycle hmem hchain =>
    have hnames := fun sectionName hsection => hnormal.unbroken_name (hchain sectionName hsection)
    exact Fault.unbroken_message_iff.2 (List.forall_mem_cons.2 ⟨hnames _ hmem, hnames⟩)
  | @failed site reason deeper hsite hreason =>
    have hvalue : Unbroken site.value := by_contra fun hvalue => hquotes (.value hsite hvalue)
    obtain ⟨hname, hkey⟩ := hsite.unbroken hnormal
    exact Fault.unbroken_message_iff.2 (by simp [Fault.quoted, hname, hkey, hvalue, hreason])
  | own hmessage => exact hmessage

/-- The handler of `use` makes up no text but that of a fault about the key. -/
theorem speaks_importSection (hnormal : setup.document.Normal) {site : OptionSite}
    (hsite : setup.HasSite site) :
    (importSection site).Speaks Unbroken fun fault => Unbroken fault.message := by
  obtain ⟨hname, hkey⟩ := hsite.unbroken hnormal
  have hformat : Unbroken
      (Fault.optionFormat site.sectionName site.rawKey "'use' requires a section name").message :=
    Fault.unbroken_message_iff.2 (by simp +decide [Fault.quoted, hname, hkey])
  unfold importSection
  dsimp only
  split
  · refine ⟨fun severity fault hreport => ?_, fun answer => ?_⟩
    · cases hreport
      exact hformat
    · cases answer with
      | error fault => exact ⟨fun _ hfault => .inl hfault, fun hnone => nomatch hnone⟩
      | ok _ => trivial
  · refine ⟨by simp, fun _ => ⟨by simp, fun answer => ?_⟩⟩
    cases answer with
    | error fault => exact ⟨fun _ hfault => .inl hfault, fun hnone => nomatch hnone⟩
    | ok state => exact ⟨by simp, fun _ => ⟨by simp, fun _ => trivial⟩⟩

/-! ## Entries -/

/-- The entries that tell a text of several lines: a value that is assigned, a fault whose text is
one, or an absent section that was asked for by such a name. -/
inductive Breaks (setup : Setup) : Trace.Entry → Prop
  | assigned {name option resolved} (depth : Nat) : setup.document.HasOption name option →
    setup.registry.resolveKey name option.1 = .ok resolved → resolved.handler = none →
    ¬ Unbroken option.2 →
    Breaks setup ⟨.keyMatch, resolved.key.parameter, depth, .ofList [("value", option.2)]⟩
  | fault {quoting : Fault} (severity decision depth) : setup.Quotes quoting →
    Breaks setup (Policy.faultEntry severity decision quoting depth)
  | entered {name} (depth : Nat) : setup.document.options? name = none → ¬ Unbroken name →
    Breaks setup ⟨.sectionEntry, name, depth, .ofList []⟩
  | left {name} (depth keys) : setup.document.options? name = none → ¬ Unbroken name →
    Breaks setup (exitEntry name depth keys)

variable {entry : Trace.Entry}

theorem unbroken_entry_singleton {kind : Trace.Kind} {name key value : String} {depth : Nat} :
    Trace.Entry.Unbroken ⟨kind, name, depth, .ofList [(key, value)]⟩ ↔
      Unbroken name ∧ Unbroken key ∧ Unbroken value := by
  have hentries : (OrderedMap.ofList [(key, value)]).entries = [(key, value)] := rfl
  rw [Trace.Entry.unbroken_iff, hentries, List.forall_mem_singleton]

theorem unbroken_faultEntry_iff {severity : Severity} {decision : Decision} {depth : Nat} :
    (Policy.faultEntry severity decision fault depth).Unbroken ↔ Unbroken fault.message := by
  have hentries : (Policy.faultEntry severity decision fault depth).details.entries =
      [("severity", severity.label), ("decision", decision.label), ("message", fault.message)] :=
    rfl
  have hname : Unbroken (Policy.faultEntry severity decision fault depth).name :=
    fault.unbroken_kind
  have hseverity : Unbroken severity.label := by cases severity <;> decide
  have hdecision : Unbroken decision.label := by cases decision <;> decide
  rw [Trace.Entry.unbroken_iff, hentries]
  simp +decide [hname, hseverity, hdecision]

theorem Breaks.broken (h : setup.Breaks entry) : ¬ entry.Unbroken := by
  cases h with
  | assigned _ _ _ _ hvalue =>
    rw [unbroken_entry_singleton]
    exact fun hunbroken => hvalue hunbroken.2.2
  | fault _ _ _ hquotes =>
    rw [unbroken_faultEntry_iff]
    exact hquotes.broken
  | entered _ _ hname | left _ _ _ hname => exact fun hunbroken => hname hunbroken.name

theorem unbroken_entry_iff (hnormal : setup.document.Normal)
    (h : setup.Tells Unbroken (.entry entry)) : entry.Unbroken ↔ ¬ setup.Breaks entry := by
  refine ⟨fun hunbroken hbreaks => hbreaks.broken hunbroken, fun hbreaks => ?_⟩
  have habsent {name : String} (hname : ¬ Unbroken name) : setup.document.options? name = none :=
    Option.eq_none_iff_forall_ne_some.2 fun options hoptions =>
      hname (hnormal.unbroken_name (hasSection_iff.2 ⟨options, hoptions⟩))
  cases h with
  | entered name depth =>
    have hname : Unbroken name :=
      by_contra fun hname => hbreaks (.entered depth (habsent hname) hname)
    exact ⟨hname, List.forall_mem_nil _⟩
  | left name depth keys =>
    have hname : Unbroken name :=
      by_contra fun hname => hbreaks (.left depth keys (habsent hname) hname)
    exact unbroken_entry_singleton.2 ⟨hname, by decide, unbroken_repr keys⟩
  | @started site depth hsite =>
    have hentries : (site.startEntry depth).details.entries =
        [("section", site.sectionName), ("key", site.rawKey)] := rfl
    obtain ⟨hname, hkey⟩ := hsite.unbroken hnormal
    refine ⟨hsite.unbroken_operation, ?_⟩
    rw [hentries]
    simp +decide [hname, hkey]
  | @ended site depth status hsite hstatus =>
    refine unbroken_entry_singleton.2 ⟨hsite.unbroken_operation, by decide, ?_⟩
    rcases hstatus with rfl | rfl <;> decide
  | assigned depth hoption hresolve hnone =>
    have hvalue := by_contra fun hvalue => hbreaks (.assigned depth hoption hresolve hnone hvalue)
    refine unbroken_entry_singleton.2 ⟨?_, by decide, hvalue⟩
    exact Registry.unbroken_parameter hresolve hnone (hnormal.unbroken_key hoption)
  | fault severity depth harises =>
    rw [unbroken_faultEntry_iff, unbroken_message_iff hnormal harises]
    exact fun hquotes => hbreaks (.fault severity _ depth hquotes)

end Setup

end IniCompose
