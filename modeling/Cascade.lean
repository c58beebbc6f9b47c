import Cascade.Compile
import Cascade.Diagnostic.Report
import Cascade.Machine.Run
import Cascade.Proofs.Catalog.Clashes
import Cascade.Proofs.Code.Text
import Cascade.Proofs.Codegen.Returns
import Cascade.Proofs.Diagnostic
import Cascade.Proofs.Machine.Checked
import Cascade.Proofs.Machine.Halting
import Cascade.Proofs.Machine.Pruning
import Cascade.Proofs.Machine.Raised
import Cascade.Proofs.Machine.Removal
import Cascade.Proofs.Machine.Untrimmed
import Cascade.Proofs.Machine.Unwinding
import Cascade.Proofs.Machine.Written
import Cascade.Proofs.Simulation.Exact
import Cascade.Proofs.Simulation.Naming
import Cascade.Proofs.Span
import Cascade.Proofs.Typing.Binding
import Cascade.Proofs.Typing.Options
import Cascade.Proofs.Typing.Parens
import Cascade.Proofs.Typing.Resumed
import Cascade.Proofs.Typing.Sharing
import Cascade.Settings.File
import Cascade.Syntax.Build
