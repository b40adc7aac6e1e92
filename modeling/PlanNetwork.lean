import PlanNetwork.Hierarchy
import PlanNetwork.Program.Session
import PlanNetwork.Program.Simplification
import PlanNetwork.Proofs.Program.Atomicity
import PlanNetwork.Proofs.Program.PathConditions
import PlanNetwork.Proofs.Program.Viability
import PlanNetwork.Support.Diagnostic
import PlanNetwork.Wire.Document
import PlanNetwork.Proofs.Number
import PlanNetwork.Proofs.Network.Retention
import PlanNetwork.Proofs.OrdMap
import PlanNetwork.Proofs.Program.Reading
import PlanNetwork.Proofs.Program.Cache
import PlanNetwork.Proofs.Program.Coherence
import PlanNetwork.Proofs.Network.Schedule
import PlanNetwork.Proofs.Program.Merging
import PlanNetwork.Proofs.Network.Detachment
import PlanNetwork.Proofs.Program.Simplification
import PlanNetwork.Proofs.Program.Equivalence
import PlanNetwork.Proofs.Program.Recursion
import PlanNetwork.Proofs.Composition.Presupposition
import PlanNetwork.Proofs.Program.Activation
import PlanNetwork.Proofs.Program.Grove
import PlanNetwork.Proofs.Program.Survey
import PlanNetwork.Proofs.Program.Hierarchy
import PlanNetwork.Proofs.Composition.Containment
import PlanNetwork.Proofs.Program.Active
import PlanNetwork.Proofs.Program.Removal
import PlanNetwork.Proofs.Program.RiskBounds
import PlanNetwork.Proofs.Composition.Assembled
import PlanNetwork.Proofs.Composition.Termination
import PlanNetwork.Proofs.Program.Naming
import PlanNetwork.Proofs.Program.Closure
import PlanNetwork.Proofs.Program.Validity
import PlanNetwork.Proofs.Program.Registry
import PlanNetwork.Proofs.Program.Loops
import PlanNetwork.Proofs.Program.Stability
import PlanNetwork.Proofs.Support.Given
import PlanNetwork.Proofs.Program.Propagation
import PlanNetwork.Proofs.Support.Algebra
import PlanNetwork.Proofs.Composition.Additions
import PlanNetwork.Proofs.Composition.Completion
import PlanNetwork.Proofs.Composition.Selection
import PlanNetwork.Proofs.Program.Collection
import PlanNetwork.Proofs.Program.Classes
import PlanNetwork.Proofs.Program.Striking
import PlanNetwork.Proofs.Program.Prefixes
import PlanNetwork.Proofs.Support.Grouping
import PlanNetwork.Proofs.Program.Coverage
import PlanNetwork.Proofs.Program.Spreading
import PlanNetwork.Proofs.Program.Unlocking
import PlanNetwork.Proofs.Program.Sameness
import PlanNetwork.Proofs.Support.Formulas
import PlanNetwork.Proofs.Probabilities
import PlanNetwork.Proofs.Wire.Durations
import PlanNetwork.Proofs.Wire.Configurations
import PlanNetwork.Proofs.Program.Lookups
