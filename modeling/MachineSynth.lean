import MachineSynth.BitSet
import MachineSynth.Command.Run
import MachineSynth.Command.World
import MachineSynth.Listing.Object
import MachineSynth.Main
import MachineSynth.Rtl.Codec
import MachineSynth.Rtl.Draft
import MachineSynth.Rtl.Restore
import MachineSynth.Rtl.Summary
import MachineSynth.Rtl.Text
import MachineSynth.Synth.Design
import MachineSynth.Term.Printer
import MachineSynth.Proofs.Builder
import MachineSynth.Proofs.Lowering.Growth
import MachineSynth.Proofs.Lowering.Instructions
import MachineSynth.Proofs.Lowering.Code
import MachineSynth.Proofs.Lowering.Linking
import MachineSynth.Proofs.Lowering.Methods
import MachineSynth.Proofs.Execution
import MachineSynth.Proofs.Lowering.Placement
import MachineSynth.Proofs.Lowering.Realization
import MachineSynth.Proofs.Interpretation
import MachineSynth.Proofs.Lowering.Computing
import MachineSynth.Proofs.Simulation
import MachineSynth.Proofs.Expansion.Layout
import MachineSynth.Proofs.Expansion.Copies
import MachineSynth.Proofs.Expansion.Filling
import MachineSynth.Proofs.Expansion.Moves
import MachineSynth.Proofs.BitSet
import MachineSynth.Proofs.Planning
import MachineSynth.Proofs.Threads
import MachineSynth.Proofs.Inlining
import MachineSynth.Proofs.Tables.Emission
import MachineSynth.Proofs.Tables.Obedience
import MachineSynth.Proofs.Encoding
import MachineSynth.Proofs.Restoring
import MachineSynth.Proofs.RoundTrip
import MachineSynth.Proofs.Tidiness
import MachineSynth.Proofs.Lowering.Tidiness
import MachineSynth.Proofs.Expansion.Tidiness
import MachineSynth.Proofs.Modules
import MachineSynth.Proofs.Tables.Linking
import MachineSynth.Proofs.Tables.Wiring
import MachineSynth.Proofs.Tables.Tidiness
import MachineSynth.Proofs.Tables.Assembly
import MachineSynth.Proofs.Wellformedness
import MachineSynth.Proofs.Sharing
import MachineSynth.Proofs.Scanning
import MachineSynth.Proofs.Tables.Building
import MachineSynth.Proofs.Ports
import MachineSynth.Proofs.Tables.Backing
import MachineSynth.Proofs.Lowering.Stability
import MachineSynth.Proofs.Reach.Exactness
import MachineSynth.Proofs.Reach.Attendance
import MachineSynth.Proofs.Tables.Gathering
import MachineSynth.Proofs.Tables.Provenance
import MachineSynth.Proofs.Journal.Acts
import MachineSynth.Proofs.Journal.Lowering
import MachineSynth.Proofs.Journal.Tables
import MachineSynth.Proofs.Journal.Joining
import MachineSynth.Proofs.Journal.Storage
import MachineSynth.Proofs.Order
import MachineSynth.Proofs.Storage
import MachineSynth.Proofs.Lowering.Charts
import MachineSynth.Proofs.Reading
import MachineSynth.Proofs.Grammar
import MachineSynth.Proofs.Printing
import MachineSynth.Proofs.Resolving
import MachineSynth.Proofs.Loading
import MachineSynth.Proofs.Legibility
import MachineSynth.Proofs.Snapshots
import MachineSynth.Proofs.Onward
import MachineSynth.Proofs.Expansion.Nesting
import MachineSynth.Proofs.Recursion
import MachineSynth.Proofs.Lowering.Pairing
import MachineSynth.Proofs.Lowering.Constants
import MachineSynth.Proofs.Expansion.Outputs
import MachineSynth.Proofs.Constants
import MachineSynth.Proofs.FirstOccurrences
import MachineSynth.Proofs.Ownership.Calls
import MachineSynth.Proofs.Ownership.Scans
import MachineSynth.Proofs.Channels.Collecting
import MachineSynth.Proofs.Channels.Accesses
import MachineSynth.Proofs.Channels.Connecting
import MachineSynth.Proofs.DataFlow.Widths
import MachineSynth.Proofs.DataFlow.Calls
import MachineSynth.Proofs.Troubles
import MachineSynth.Proofs.Dangling
import MachineSynth.Proofs.Spans
import MachineSynth.Proofs.Complaints
import MachineSynth.Proofs.Reports
import MachineSynth.Proofs.Operators.Units
import MachineSynth.Proofs.Operators.Registers
import MachineSynth.Proofs.Operators.Fitting
import MachineSynth.Proofs.FreshNames
import MachineSynth.Proofs.FiniteSets
import MachineSynth.Proofs.Columns
import MachineSynth.Proofs.RegisterNames
import MachineSynth.Proofs.Expansion.Recording
import MachineSynth.Proofs.Delivery.Entrances
import MachineSynth.Proofs.Delivery.Outgoing
import MachineSynth.Proofs.Delivery.Posting
import MachineSynth.Proofs.Delivery.Calls
