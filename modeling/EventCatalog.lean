import EventCatalog.Main
import EventCatalog.Proofs.Command.Format
import EventCatalog.Proofs.Command.Imports
import EventCatalog.Proofs.Compilation.Acyclic
import EventCatalog.Proofs.Compilation.Arrangement
import EventCatalog.Proofs.Compilation.Edges
import EventCatalog.Proofs.Compilation.Loading
import EventCatalog.Proofs.Compilation.Nodes
import EventCatalog.Proofs.Compilation.Places
import EventCatalog.Proofs.Compilation.References
import EventCatalog.Proofs.Compilation.Unrelated
import EventCatalog.Proofs.Completion.Enclosing
import EventCatalog.Proofs.Completion.Names
import EventCatalog.Proofs.Completion.Specifiers
import EventCatalog.Proofs.Completion.Versions
import EventCatalog.Proofs.Layout.Invisible
import EventCatalog.Proofs.Layout.Lines
import EventCatalog.Proofs.Printing.Recovered
import EventCatalog.Proofs.Projection.Definitions
import EventCatalog.Proofs.Report.Labels
import EventCatalog.Proofs.Scope.Meaning
import EventCatalog.Proofs.Scope.Seen
import EventCatalog.Proofs.Syntax.Iterations
import EventCatalog.Proofs.Syntax.Joining
import EventCatalog.Proofs.Syntax.Lineless.Program
import EventCatalog.Proofs.Syntax.Nesting
import EventCatalog.Proofs.Syntax.Slices
import EventCatalog.Proofs.Token.Arrows
import EventCatalog.Proofs.Token.Literals
import EventCatalog.Proofs.Validation.Versions
import EventCatalog.Proofs.Version.Plain
import EventCatalog.Proofs.Workspace.Convergence
import EventCatalog.Proofs.Workspace.Generation
import EventCatalog.Syntax.Relabel
import EventCatalog.Workspace
