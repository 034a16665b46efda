import ApexPaths.Proofs.Build.Linking
import ApexPaths.Proofs.Build.Materialization
import ApexPaths.Proofs.Concrete.Propagation
import ApexPaths.Proofs.Concrete.SideEffects
import ApexPaths.Proofs.Expansion.Accounting
import ApexPaths.Proofs.Expansion.Conditions
import ApexPaths.Proofs.Expansion.Contradictions
import ApexPaths.Proofs.Expansion.Depth
import ApexPaths.Proofs.Expansion.Invokers
import ApexPaths.Proofs.Expansion.Merging
import ApexPaths.Proofs.Expansion.Scheduling
import ApexPaths.Proofs.Expansion.Separation
import ApexPaths.Proofs.Library.Descriptions
import ApexPaths.Proofs.Pipeline.Coherence
import ApexPaths.Proofs.Program.Overloads
import ApexPaths.Proofs.Program.References
import ApexPaths.Proofs.Settings.Documents
import ApexPaths.Proofs.Source.Closing
import ApexPaths.Proofs.Source.Nesting
import ApexPaths.Proofs.Source.Operators
import ApexPaths.Proofs.Value.Operators
import ApexPaths.Proofs.Walk.Counter
import ApexPaths.Proofs.Walk.Distinct
import ApexPaths.Proofs.Walk.Endless
import ApexPaths.Report.Graph
import ApexPaths.Report.Path
import ApexPaths.Report.Program
import ApexPaths.Report.Walk
