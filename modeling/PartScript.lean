import PartScript.Build.Symbolic
import PartScript.Proofs.Accepted
import PartScript.Proofs.Acyclicity
import PartScript.Proofs.Afresh
import PartScript.Proofs.Alike
import PartScript.Proofs.Answering
import PartScript.Proofs.Binding
import PartScript.Proofs.Calls
import PartScript.Proofs.Carets
import PartScript.Proofs.Chains
import PartScript.Proofs.Changes
import PartScript.Proofs.Completeness
import PartScript.Proofs.Conservative
import PartScript.Proofs.Counts
import PartScript.Proofs.Cycles
import PartScript.Proofs.Deliveries
import PartScript.Proofs.Dependencies
import PartScript.Proofs.Depth
import PartScript.Proofs.Derivation
import PartScript.Proofs.Encoding
import PartScript.Proofs.Engine
import PartScript.Proofs.Faithful
import PartScript.Proofs.Footprints
import PartScript.Proofs.Forks
import PartScript.Proofs.Frames
import PartScript.Proofs.Heads
import PartScript.Proofs.Histories
import PartScript.Proofs.Imports
import PartScript.Proofs.Insertion
import PartScript.Proofs.Invariants
import PartScript.Proofs.Invocations
import PartScript.Proofs.Keys
import PartScript.Proofs.Labels
import PartScript.Proofs.Lexemes
import PartScript.Proofs.Lifecycle
import PartScript.Proofs.Lineage
import PartScript.Proofs.Loading
import PartScript.Proofs.Locality
import PartScript.Proofs.Lockstep
import PartScript.Proofs.Longer
import PartScript.Proofs.Loops
import PartScript.Proofs.Meaning
import PartScript.Proofs.Moved
import PartScript.Proofs.Names
import PartScript.Proofs.Naming
import PartScript.Proofs.Nesting
import PartScript.Proofs.Omissions
import PartScript.Proofs.Once
import PartScript.Proofs.Orderly
import PartScript.Proofs.Outcomes
import PartScript.Proofs.Outlines
import PartScript.Proofs.Parsing
import PartScript.Proofs.Paths
import PartScript.Proofs.Phrases
import PartScript.Proofs.Pieces
import PartScript.Proofs.Placements
import PartScript.Proofs.Places
import PartScript.Proofs.Plan
import PartScript.Proofs.Positions
import PartScript.Proofs.Productions
import PartScript.Proofs.Questions
import PartScript.Proofs.Readback
import PartScript.Proofs.Reading
import PartScript.Proofs.Reads
import PartScript.Proofs.Recall
import PartScript.Proofs.Recursion
import PartScript.Proofs.Refusals
import PartScript.Proofs.Resolution
import PartScript.Proofs.Returns
import PartScript.Proofs.Reworded
import PartScript.Proofs.Scope
import PartScript.Proofs.Scoping
import PartScript.Proofs.Selections
import PartScript.Proofs.Sentences
import PartScript.Proofs.Sessions
import PartScript.Proofs.Sharing
import PartScript.Proofs.Soundness
import PartScript.Proofs.Sources
import PartScript.Proofs.Stability
import PartScript.Proofs.Streams
import PartScript.Proofs.Symbols
import PartScript.Proofs.Tandem
import PartScript.Proofs.Termination
import PartScript.Proofs.Texts
import PartScript.Proofs.Tiling
import PartScript.Proofs.Tokens
import PartScript.Proofs.Turns
import PartScript.Proofs.Unambiguous
import PartScript.Proofs.Unread
import PartScript.Proofs.Values
import PartScript.Proofs.Walk
import PartScript.Proofs.Watch
import PartScript.Proofs.Workbench
import PartScript.Proofs.Workshops
import PartScript.Proofs.Written
import PartScript.Session
