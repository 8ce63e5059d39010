import IniCompose.Console
import IniCompose.Document.ListValue
import IniCompose.Engine.Collapse
import IniCompose.Engine.View
import IniCompose.Settings.Load
import IniCompose.Proofs.Composition.Cycles
import IniCompose.Proofs.Engine.Collapsed
import IniCompose.Proofs.Engine.Invalidation
import IniCompose.Proofs.Evaluation.Nesting
import IniCompose.Proofs.Evaluation.Routing
import IniCompose.Proofs.Engine.Recorded
import IniCompose.Proofs.Document.Occurrences
import IniCompose.Proofs.Engine.Yielded
import IniCompose.Proofs.Evaluation.Skipping
import IniCompose.Proofs.Evaluation.Strictness
import IniCompose.Proofs.Document.Additions
import IniCompose.Proofs.Document.Statements
import IniCompose.Proofs.Document.Merging
import IniCompose.Proofs.Document.Built
import IniCompose.Proofs.Composition.Batch
import IniCompose.Proofs.Evaluation.Completed
import IniCompose.Proofs.Evaluation.Demands
import IniCompose.Proofs.Engine.Undisturbed
import IniCompose.Proofs.Evaluation.Entries
import IniCompose.Proofs.Evaluation.Unwinding
import IniCompose.Proofs.Engine.Scoped
import IniCompose.Proofs.Evaluation.Accounting
import IniCompose.Proofs.Engine.Accounted
import IniCompose.Proofs.Engine.Footprint
import IniCompose.Proofs.Document.Assembled
import IniCompose.Proofs.Document.Misplaced
import IniCompose.Proofs.Document.Layout
import IniCompose.Proofs.SectionState.Merging
import IniCompose.Proofs.Engine.Delivered
import IniCompose.Proofs.Registry.Quoting
import IniCompose.Proofs.Registry.Registrations
import IniCompose.Proofs.Trace.JsonLines
import IniCompose.Proofs.Engine.Rendered
import IniCompose.Proofs.Engine.Warned
import IniCompose.Proofs.Document.ListValue
import IniCompose.Proofs.Document.Insertion
import IniCompose.Proofs.Evaluation.Recognized
