import MarkPhase.Binary64
import MarkPhase.Budget
import MarkPhase.Calls
import MarkPhase.Cells
import MarkPhase.Classes
import MarkPhase.Configuration
import MarkPhase.Construction
import MarkPhase.Contexts
import MarkPhase.Decimals
import MarkPhase.DelayedList
import MarkPhase.Demo
import MarkPhase.Descriptions
import MarkPhase.Draining
import MarkPhase.Entries
import MarkPhase.Faults
import MarkPhase.Filenames
import MarkPhase.Graph
import MarkPhase.Heap
import MarkPhase.Journal
import MarkPhase.Main
import MarkPhase.Marker
import MarkPhase.Memory
import MarkPhase.Numerals
import MarkPhase.Objects
import MarkPhase.Printable
import MarkPhase.Quoting
import MarkPhase.Recording
import MarkPhase.Samples
import MarkPhase.Scanning
import MarkPhase.SegmentedStack
import MarkPhase.Settings
import MarkPhase.Shades
import MarkPhase.Sizes
import MarkPhase.Statistics
import MarkPhase.Texts
import MarkPhase.Things
import MarkPhase.Tracing
import MarkPhase.Values
import MarkPhase.Visits
import MarkPhase.Proofs.Building
import MarkPhase.Proofs.Delays
import MarkPhase.Proofs.Segments
import MarkPhase.Proofs.Edges
import MarkPhase.Proofs.Balance
import MarkPhase.Proofs.Loads
import MarkPhase.Proofs.Tracking
import MarkPhase.Proofs.Pushing
import MarkPhase.Proofs.Scans
import MarkPhase.Proofs.Visiting
import MarkPhase.Proofs.Drains
import MarkPhase.Proofs.Sessions
import MarkPhase.Proofs.Frequency
import MarkPhase.Proofs.Moves
import MarkPhase.Proofs.Likeness
import MarkPhase.Proofs.Slicing
import MarkPhase.Proofs.BoundedLists
import MarkPhase.Proofs.Counting
import MarkPhase.Proofs.Progress
import MarkPhase.Proofs.Frames
import MarkPhase.Proofs.Histories
import MarkPhase.Proofs.Lineages
import MarkPhase.Proofs.PendingWork
import MarkPhase.Proofs.Safety
import MarkPhase.Proofs.Colors
import MarkPhase.Proofs.Pairs
import MarkPhase.Proofs.Loops
import MarkPhase.Proofs.Changes
import MarkPhase.Proofs.Growth
import MarkPhase.Proofs.Lockstep
import MarkPhase.Proofs.Bounds
import MarkPhase.Proofs.Restarts
import MarkPhase.Proofs.Confinement
import MarkPhase.Proofs.Isolation
import MarkPhase.Proofs.Interning
import MarkPhase.Proofs.Retention
import MarkPhase.Proofs.Chronicles
import MarkPhase.Proofs.Erasures
import MarkPhase.Proofs.Walks
import MarkPhase.Proofs.Ropes
import MarkPhase.Proofs.Dues
import MarkPhase.Proofs.Settlements
import MarkPhase.Proofs.Audits
import MarkPhase.Proofs.Budgets
import MarkPhase.Proofs.Chains
import MarkPhase.Proofs.ShortStacks
import MarkPhase.Proofs.Slots
import MarkPhase.Proofs.Enumerations
import MarkPhase.Proofs.Surveys
import MarkPhase.Proofs.LineageReports
import MarkPhase.Proofs.Slices
import MarkPhase.Proofs.Readings
import MarkPhase.Proofs.StringHistories
import MarkPhase.Proofs.Resizing
import MarkPhase.Proofs.Storage
import MarkPhase.Proofs.Mirrors
import MarkPhase.Proofs.Labels
import MarkPhase.Proofs.LooseEnds
import MarkPhase.Proofs.Locations
import MarkPhase.Proofs.Whereabouts
import MarkPhase.Proofs.Roundings
import MarkPhase.Proofs.ScaledCounts
import MarkPhase.Proofs.Upkeep
import MarkPhase.Proofs.Dangling
import MarkPhase.Proofs.Trails
import MarkPhase.Proofs.Sidesteps
import MarkPhase.Proofs.Stretches
import MarkPhase.Proofs.LineagePushes
import MarkPhase.Proofs.Descents
import MarkPhase.Proofs.Atoms
import MarkPhase.Proofs.WaitingOrder
import MarkPhase.Proofs.Extensions
import MarkPhase.Proofs.Persistence
import MarkPhase.Proofs.Paddings
