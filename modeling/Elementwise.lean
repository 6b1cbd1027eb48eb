import Elementwise.Json.Reader
import Elementwise.Diagnostic.Report
import Elementwise.Code.Text
import Elementwise.LineProgram
import Elementwise.Proofs.Compile.Accepted
import Elementwise.Proofs.Compile.Disciplines
import Elementwise.Proofs.Compile.Meaning
import Elementwise.Proofs.Compile.Compound
import Elementwise.Proofs.Tree.Cycles
import Elementwise.Proofs.Execute.Rejected
import Elementwise.Proofs.Execute.Interrupted
import Elementwise.Proofs.Code.Bounds
import Elementwise.Proofs.Compile.Settings
import Elementwise.Proofs.Compile.CustomData
import Elementwise.Proofs.Compile.Spans
import Elementwise.Proofs.Optimize.Fixpoint
import Elementwise.Proofs.Compile.Jumps
import Elementwise.Proofs.Compile.Indexing
import Elementwise.Proofs.Function.Total
import Elementwise.Proofs.Function.Overloads
import Elementwise.Proofs.Diagnostic.Books
import Elementwise.Proofs.Compile.Assigned
import Elementwise.Proofs.Value.Integer
import Elementwise.Proofs.Generate.Nesting
