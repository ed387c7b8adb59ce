import OutlineTypes.Arena
import OutlineTypes.Document
import OutlineTypes.Fault
import OutlineTypes.Graph
import OutlineTypes.Identity
import OutlineTypes.Ordered
import OutlineTypes.Proofs.Arena.Calls
import OutlineTypes.Proofs.Arena.Consistency
import OutlineTypes.Proofs.Arena.Index
import OutlineTypes.Proofs.Arena.Isolation
import OutlineTypes.Proofs.Arena.Creation
import OutlineTypes.Proofs.Arena.Removal
import OutlineTypes.Proofs.Arena.Successors
import OutlineTypes.Proofs.Contract
import OutlineTypes.Proofs.Cruft
import OutlineTypes.Proofs.Document.Agreement
import OutlineTypes.Proofs.Document.Alignment
import OutlineTypes.Proofs.Document.Containment
import OutlineTypes.Proofs.Document.Content
import OutlineTypes.Proofs.Document.Factoring
import OutlineTypes.Proofs.Document.Grammar
import OutlineTypes.Proofs.Document.Likeness
import OutlineTypes.Proofs.Document.Nesting
import OutlineTypes.Proofs.Document.Order
import OutlineTypes.Proofs.Document.Placement
import OutlineTypes.Proofs.Document.Plan
import OutlineTypes.Proofs.Document.Ranges
import OutlineTypes.Proofs.Document.Reading
import OutlineTypes.Proofs.Document.Region
import OutlineTypes.Proofs.Document.Renaming
import OutlineTypes.Proofs.Document.Splicing
import OutlineTypes.Proofs.Document.Text
import OutlineTypes.Proofs.Faults
import OutlineTypes.Proofs.Graph.Calls
import OutlineTypes.Proofs.Graph.Change
import OutlineTypes.Proofs.Graph.Coherence
import OutlineTypes.Proofs.Graph.Content
import OutlineTypes.Proofs.Graph.Copy
import OutlineTypes.Proofs.Graph.Creation
import OutlineTypes.Proofs.Graph.Disposal
import OutlineTypes.Proofs.Graph.Exclusion
import OutlineTypes.Proofs.Graph.Identity
import OutlineTypes.Proofs.Graph.Inclusion
import OutlineTypes.Proofs.Graph.Isolation
import OutlineTypes.Proofs.Graph.Order
import OutlineTypes.Proofs.Graph.Portrait
import OutlineTypes.Proofs.Graph.RoundTrip
import OutlineTypes.Proofs.Graph.Scope
import OutlineTypes.Proofs.Lists
import OutlineTypes.Proofs.Lockstep
import OutlineTypes.Proofs.Ordered
import OutlineTypes.Proofs.Reach
import OutlineTypes.Proofs.Resolution.Account
import OutlineTypes.Proofs.Resolution.Acyclicity
import OutlineTypes.Proofs.Resolution.Advance
import OutlineTypes.Proofs.Resolution.Annotations
import OutlineTypes.Proofs.Resolution.Answers
import OutlineTypes.Proofs.Resolution.Candidates
import OutlineTypes.Proofs.Resolution.Citations
import OutlineTypes.Proofs.Resolution.Completion
import OutlineTypes.Proofs.Resolution.Constancy
import OutlineTypes.Proofs.Resolution.Cutting
import OutlineTypes.Proofs.Resolution.Descent
import OutlineTypes.Proofs.Resolution.Drill
import OutlineTypes.Proofs.Resolution.Finality
import OutlineTypes.Proofs.Resolution.Growth
import OutlineTypes.Proofs.Resolution.Layers
import OutlineTypes.Proofs.Resolution.Ledger
import OutlineTypes.Proofs.Resolution.Leniency
import OutlineTypes.Proofs.Resolution.Lineage
import OutlineTypes.Proofs.Resolution.Nearest
import OutlineTypes.Proofs.Resolution.Precedence
import OutlineTypes.Proofs.Resolution.Pruning
import OutlineTypes.Proofs.Resolution.Raking
import OutlineTypes.Proofs.Resolution.Reachability
import OutlineTypes.Proofs.Resolution.Refinement
import OutlineTypes.Proofs.Resolution.Rest
import OutlineTypes.Proofs.Resolution.Sanity
import OutlineTypes.Proofs.Resolution.Selection
import OutlineTypes.Proofs.Resolution.Settling
import OutlineTypes.Proofs.Resolution.Steps
import OutlineTypes.Proofs.Resolution.Tasks
import OutlineTypes.Proofs.Resolution.TwinCopies
import OutlineTypes.Proofs.Resolution.TwinCruft
import OutlineTypes.Proofs.Resolution.TwinCycles
import OutlineTypes.Proofs.Resolution.TwinDrill
import OutlineTypes.Proofs.Resolution.TwinPreparation
import OutlineTypes.Proofs.Resolution.Verdict
import OutlineTypes.Proofs.Resolution.Waiver
import OutlineTypes.Proofs.Success
import OutlineTypes.Proofs.TypePath
import OutlineTypes.Proofs.Workspace.Answers
import OutlineTypes.Proofs.Workspace.Cache
import OutlineTypes.Proofs.Workspace.Candidates
import OutlineTypes.Proofs.Workspace.Content
import OutlineTypes.Proofs.Workspace.Contracts
import OutlineTypes.Proofs.Workspace.Currency
import OutlineTypes.Proofs.Workspace.Deeds
import OutlineTypes.Proofs.Workspace.DrillOrder
import OutlineTypes.Proofs.Workspace.Drilled
import OutlineTypes.Proofs.Workspace.Faults
import OutlineTypes.Proofs.Workspace.Growth
import OutlineTypes.Proofs.Workspace.Identity
import OutlineTypes.Proofs.Workspace.Independence
import OutlineTypes.Proofs.Workspace.Isolation
import OutlineTypes.Proofs.Workspace.Leniency
import OutlineTypes.Proofs.Workspace.Naming
import OutlineTypes.Proofs.Workspace.Precedence
import OutlineTypes.Proofs.Workspace.Program
import OutlineTypes.Proofs.Workspace.Readings
import OutlineTypes.Proofs.Workspace.Refusal
import OutlineTypes.Proofs.Workspace.Reload
import OutlineTypes.Proofs.Workspace.Safety
import OutlineTypes.Proofs.Workspace.Structure
import OutlineTypes.Proofs.Workspace.Synchronisation
import OutlineTypes.Proofs.Workspace.Tasks
import OutlineTypes.Resolution.Drill
import OutlineTypes.Resolution.Session
import OutlineTypes.Statement
import OutlineTypes.Text
import OutlineTypes.Workspace.Change
import OutlineTypes.Workspace.Query
