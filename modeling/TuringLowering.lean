import TuringLowering.Main
import TuringLowering.Cell.Order
import TuringLowering.Proofs.Operation
import TuringLowering.Proofs.Capability
import TuringLowering.Proofs.Guard
import TuringLowering.Proofs.Renaming
import TuringLowering.Proofs.Widening
import TuringLowering.Proofs.JointWidening
import TuringLowering.Proofs.Transparency
import TuringLowering.Proofs.Execution
import TuringLowering.Proofs.Rules
import TuringLowering.Proofs.Names
import TuringLowering.Proofs.Chains
import TuringLowering.Proofs.Carrying
import TuringLowering.Proofs.Mention
import TuringLowering.Proofs.Regrowth
import TuringLowering.Proofs.Letters
import TuringLowering.Proofs.Realization
import TuringLowering.Proofs.FeatureIndependence
import TuringLowering.Proofs.SegmentNames
import TuringLowering.Proofs.Sharing
import TuringLowering.Proofs.Zipper
import TuringLowering.Proofs.Inventory
import TuringLowering.Proofs.Routing
import TuringLowering.Proofs.Segments
import TuringLowering.Proofs.Passes
import TuringLowering.Proofs.Layout
import TuringLowering.Proofs.Preparation
import TuringLowering.Proofs.JointProgram
import TuringLowering.Proofs.OwnTapes
import TuringLowering.Proofs.Mirror
import TuringLowering.Proofs.MultiTape
import TuringLowering.Proofs.SharedStep
import TuringLowering.Proofs.Admission
import TuringLowering.Proofs.StoredPrograms
import TuringLowering.Proofs.JointAdmission
import TuringLowering.Proofs.Acceptance
import TuringLowering.Proofs.Reachability
import TuringLowering.Proofs.TapePrograms
import TuringLowering.Proofs.Palindrome
import TuringLowering.Proofs.Locality
import TuringLowering.Proofs.Relays
import TuringLowering.Proofs.Territory
import TuringLowering.Proofs.Interleaving
import TuringLowering.Proofs.RequestOrder
import TuringLowering.Proofs.InitialLayout
import TuringLowering.Proofs.Insertion
import TuringLowering.Proofs.Origins
import TuringLowering.Proofs.Overflow
import TuringLowering.Proofs.MissingMarker
import TuringLowering.Proofs.Continuations
import TuringLowering.Proofs.Refusals
import TuringLowering.Proofs.FirstMatch
import TuringLowering.Proofs.SlotTable
import TuringLowering.Proofs.RuleHistory
import TuringLowering.Proofs.DraftHistory
import TuringLowering.Proofs.Gaps
import TuringLowering.Proofs.JointContinuations
import TuringLowering.Proofs.Primitives
import TuringLowering.Proofs.Enumeration
import TuringLowering.Proofs.Decoding
import TuringLowering.Proofs.ByteOrder
import TuringLowering.Proofs.Diagnosis
import TuringLowering.Proofs.Replacement
import TuringLowering.Proofs.Isomorphism
import TuringLowering.Proofs.Growth
import TuringLowering.Proofs.Composition
import TuringLowering.Proofs.Undo
import TuringLowering.Proofs.Padding
import TuringLowering.Proofs.Registry
