import RegisterColoring.Main
import RegisterColoring.Proofs.Flow.Mentions
import RegisterColoring.Proofs.Flow.Recording
import RegisterColoring.Proofs.Flow.Built
import RegisterColoring.Proofs.Live.FixedPoint
import RegisterColoring.Proofs.Interference.Edges
import RegisterColoring.Proofs.Live.Paths
import RegisterColoring.Proofs.Coloring.Colors
import RegisterColoring.Proofs.Live.Analysed
import RegisterColoring.Proofs.Allocation.Outcome
import RegisterColoring.Proofs.Allocation.Conflicts
import RegisterColoring.Proofs.Allocation.Totality
import RegisterColoring.Proofs.Flow.Control
import RegisterColoring.Proofs.Live.Runs
import RegisterColoring.Proofs.Allocation.Clobbering
import RegisterColoring.Proofs.Flow.Simulation
import RegisterColoring.Proofs.Flow.Order
import RegisterColoring.Proofs.Live.Intervals
import RegisterColoring.Proofs.Interference.Nodes
import RegisterColoring.Proofs.Coloring.Degrees
import RegisterColoring.Proofs.Allocation.Spills
import RegisterColoring.Proofs.Allocation.Colorable
import RegisterColoring.Proofs.Allocation.Forced
import RegisterColoring.Proofs.Allocation.History
import RegisterColoring.Proofs.Allocation.Refusals
import RegisterColoring.Proofs.Allocation.Descriptors
import RegisterColoring.Proofs.Symbols
import RegisterColoring.Proofs.Text
import RegisterColoring.Proofs.Source.Spelling
import RegisterColoring.Proofs.Source.Steps
import RegisterColoring.Proofs.Source.Scanning
import RegisterColoring.Proofs.Source.RoundTrip
import RegisterColoring.Proofs.Source.Nesting
import RegisterColoring.Proofs.Source.Scoping
import RegisterColoring.Proofs.Flow.Buildable
import RegisterColoring.Proofs.Source.Faults
import RegisterColoring.Proofs.Allocation.Programs
import RegisterColoring.Proofs.Live.Sweeping
import RegisterColoring.Proofs.Allocation.Verdicts
import RegisterColoring.Proofs.Interference.Plain
import RegisterColoring.Proofs.Interference.Refinement
import RegisterColoring.Proofs.Flow.Renaming
import RegisterColoring.Proofs.Coloring.Renaming
import RegisterColoring.Proofs.Allocation.Renaming
import RegisterColoring.Proofs.Live.Canonical
import RegisterColoring.Proofs.Flow.Cuts
import RegisterColoring.Proofs.Live.Exact
import RegisterColoring.Proofs.Flow.Diagnosis
import RegisterColoring.Proofs.Flow.Neighbours
import RegisterColoring.Proofs.Allocation.Slots
import RegisterColoring.Proofs.Declarations
import RegisterColoring.Proofs.Flow.Rerecording
import RegisterColoring.Proofs.Flow.Tables
import RegisterColoring.Proofs.Coloring.Policy
import RegisterColoring.Proofs.Source.Brackets
import RegisterColoring.Proofs.Source.Groups
import RegisterColoring.Proofs.Live.Lifetimes
import RegisterColoring.Proofs.Interference.Boundaries
import RegisterColoring.Proofs.Flow.Lookup
import RegisterColoring.Proofs.Live.Timelines
