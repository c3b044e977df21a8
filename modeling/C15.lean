import C15.Main
import C15.Proofs.Identity
import C15.Proofs.Scopes
import C15.Proofs.Checking
import C15.Proofs.Facts
import C15.Proofs.Lowering
import C15.Proofs.Storage
import C15.Proofs.Labels
import C15.Proofs.ControlFlow
import C15.Proofs.Semantics
import C15.Proofs.Machine
import C15.Proofs.Simulation
import C15.Proofs.Execution
import C15.Proofs.Preservation
import C15.Proofs.Capacity
import C15.Proofs.StackDepth
import C15.Proofs.Numerals
import C15.Proofs.LineText
import C15.Proofs.Rounding
import C15.Proofs.RoundTrip
import C15.Proofs.OperandFields
import C15.Proofs.Spelling
import C15.Proofs.Emission
import C15.Proofs.Assembling
import C15.Proofs.Grammar
import C15.Proofs.Reading
import C15.Proofs.ReadingSound
import C15.Proofs.ReadingComplete
import C15.Proofs.TypeRules
import C15.Proofs.TypeChecking
import C15.Proofs.Listing
import C15.Proofs.Alike
import C15.Proofs.AlikeChecking
import C15.Proofs.Layout
import C15.Proofs.FloatFree
import C15.Proofs.Rejection
import C15.Proofs.BlockScope
import C15.Proofs.Provenance
import C15.Proofs.Ownership
import C15.Proofs.Writes
import C15.Proofs.Constants
import C15.Proofs.Tiling
import C15.Proofs.Delimiting
import C15.Proofs.Nesting
import C15.Proofs.Reports
import C15.Proofs.SourceSpans
import C15.Proofs.CallPaths
import C15.Proofs.Recursion
import C15.Proofs.Documents
import C15.Proofs.Positions
import C15.Proofs.WholeLiterals
import C15.Proofs.Phrases
import C15.Proofs.Targets
import C15.Proofs.ReaderCalls
import C15.Proofs.Plans
import C15.Proofs.Disks
import C15.Proofs.Manifests
import C15.Proofs.NewProjects
import C15.Proofs.Reads
import C15.Proofs.Pushes
import C15.Proofs.Decoding
