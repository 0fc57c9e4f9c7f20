import VerifiedLedger.Accumulator.Basic
import VerifiedLedger.Accumulator.Forest
import VerifiedLedger.Accumulator.LeafProof
import VerifiedLedger.Accumulator.RangeProof
import VerifiedLedger.Bls.Curve
import VerifiedLedger.Bls.Encoding
import VerifiedLedger.Bls.Extension
import VerifiedLedger.Bls.HashToCurve
import VerifiedLedger.Bls.Pairing
import VerifiedLedger.Bls.PrimeField
import VerifiedLedger.Bls.Signature
import VerifiedLedger.Bytes.BitPath
import VerifiedLedger.Bytes.Bits
import VerifiedLedger.Bytes.Fixed
import VerifiedLedger.Bytes.Hex
import VerifiedLedger.Bytes.LittleEndian
import VerifiedLedger.Bytes.OrderedMap
import VerifiedLedger.Bytes.Utf8
import VerifiedLedger.Client.Consistency
import VerifiedLedger.Client.Error
import VerifiedLedger.Client.LightClient
import VerifiedLedger.Client.SavedState
import VerifiedLedger.Evidence.Account
import VerifiedLedger.Evidence.Error
import VerifiedLedger.Evidence.Event
import VerifiedLedger.Evidence.Info
import VerifiedLedger.Evidence.Transaction
import VerifiedLedger.Format.Basic
import VerifiedLedger.Format.Collection
import VerifiedLedger.Format.Hex
import VerifiedLedger.Format.Record
import VerifiedLedger.Format.Variant
import VerifiedLedger.Hash.Digest
import VerifiedLedger.Hash.Domain
import VerifiedLedger.Hash.Sha256
import VerifiedLedger.Json.Basic
import VerifiedLedger.Json.Parser
import VerifiedLedger.Json.Printer
import VerifiedLedger.Keccak.Permutation
import VerifiedLedger.Keccak.Sponge
import VerifiedLedger.Ledger.Account
import VerifiedLedger.Ledger.Address
import VerifiedLedger.Ledger.Event
import VerifiedLedger.Ledger.LedgerInfo
import VerifiedLedger.Ledger.StructTag
import VerifiedLedger.Ledger.Transaction
import VerifiedLedger.Ledger.Validator
import VerifiedLedger.RecordType
import VerifiedLedger.SparseTree.Proof
import VerifiedLedger.Text.Decimal
import VerifiedLedger.Tree.Error
import VerifiedLedger.Tree.Siblings
import VerifiedLedger.Trust.Anchor
import VerifiedLedger.Trust.EpochChain
import VerifiedLedger.Trust.Error
import VerifiedLedger.Trust.Waypoint
import VerifiedLedger.Proofs.Bits
import VerifiedLedger.Proofs.Hash.Collision
import VerifiedLedger.Proofs.Tree.HashTree
import VerifiedLedger.Proofs.Forest.Related
import VerifiedLedger.Proofs.Tree.Blocks
import VerifiedLedger.Proofs.Tree.Tiles
import VerifiedLedger.Proofs.Accumulator.Growth
import VerifiedLedger.Proofs.Forest.Terms
import VerifiedLedger.Proofs.Forest.Valid
import VerifiedLedger.Proofs.Forest.Binding
import VerifiedLedger.Proofs.Client.Consistency
import VerifiedLedger.Proofs.Tree.Prefix
import VerifiedLedger.Proofs.Client.Update
import VerifiedLedger.Proofs.Client.History
import VerifiedLedger.Proofs.Accumulator.LeafPaths
import VerifiedLedger.Proofs.Accumulator.RangePaths
import VerifiedLedger.Proofs.Bytes.LittleEndian
import VerifiedLedger.Proofs.Hash.Separation
import VerifiedLedger.Proofs.Tree.Climb
import VerifiedLedger.Proofs.Bytes.BitPath
import VerifiedLedger.Proofs.SparseTree.Binding
import VerifiedLedger.Proofs.Tree.Root
import VerifiedLedger.Proofs.Tree.Paths
import VerifiedLedger.Proofs.Accumulator.Records
import VerifiedLedger.Proofs.Bytes.Utf8
import VerifiedLedger.Proofs.Bytes.OrderedMap
import VerifiedLedger.Proofs.Bytes.Hex
import VerifiedLedger.Proofs.Text.Decimal
import VerifiedLedger.Proofs.Format.ReadBack
import VerifiedLedger.Proofs.Format.Canonical
import VerifiedLedger.Proofs.Format.Fixed
import VerifiedLedger.Proofs.Ledger.StructTag
import VerifiedLedger.Proofs.Ledger.Encoding
import VerifiedLedger.Proofs.Trust.Waypoint
import VerifiedLedger.Proofs.Evidence.Encoding
import VerifiedLedger.Proofs.Client.Encoding
import VerifiedLedger.Proofs.RecordType
import VerifiedLedger.Proofs.Ledger.Commitments
import VerifiedLedger.Proofs.Ledger.RecordHashes
import VerifiedLedger.Proofs.Evidence.Info
import VerifiedLedger.Proofs.Accumulator.RangeTerms
import VerifiedLedger.Proofs.Bls.Evaluation
import VerifiedLedger.Proofs.Evidence.Transaction
import VerifiedLedger.Proofs.Evidence.Event
import VerifiedLedger.Proofs.SparseTree.Leaves
import VerifiedLedger.Proofs.SparseTree.Completeness
import VerifiedLedger.Proofs.Evidence.Account
import VerifiedLedger.Proofs.Trust.Quorum
import VerifiedLedger.Proofs.Trust.EpochChain
import VerifiedLedger.Proofs.Trust.CommonSigners
import VerifiedLedger.Proofs.Forest.Carry
import VerifiedLedger.Proofs.Words
import VerifiedLedger.Proofs.Forest.Words
import VerifiedLedger.Proofs.Forest.RootRun
import VerifiedLedger.Proofs.Accumulator.Built
import VerifiedLedger.Proofs.Tree.Levels
import VerifiedLedger.Proofs.Client.Runs
import VerifiedLedger.Proofs.Client.Provenance
import VerifiedLedger.Proofs.Json.Tokens
import VerifiedLedger.Proofs.Json.Values
import VerifiedLedger.Proofs.Format.JsonForm
import VerifiedLedger.Proofs.Ledger.JsonForms
import VerifiedLedger.Proofs.Ledger.TypeTagJson
import VerifiedLedger.Proofs.Evidence.JsonForms
import VerifiedLedger.Proofs.Client.JsonForms
import VerifiedLedger.Proofs.RecordText
import VerifiedLedger.Proofs.Client.Saved
import VerifiedLedger.Proofs.Client.Paths
import VerifiedLedger.Proofs.Trust.ChainConditions
import VerifiedLedger.Proofs.Trust.ChainParts
import VerifiedLedger.Proofs.Trust.Certificates
import VerifiedLedger.Proofs.Trust.VotingPower
import VerifiedLedger.Proofs.Accumulator.SiblingPaths
import VerifiedLedger.Proofs.Accumulator.RunSiblings
import VerifiedLedger.Proofs.Tree.MaximalBlocks
import VerifiedLedger.Proofs.Accumulator.SubtreeCounts
import VerifiedLedger.Proofs.Format.Injective
import VerifiedLedger.Proofs.Trust.WaypointCommitment
import VerifiedLedger.Proofs.Bytes.HexSpelling
import VerifiedLedger.Proofs.Trust.WaypointText
import VerifiedLedger.Proofs.Bytes.HexText
import VerifiedLedger.Proofs.Bytes.BitNumber
import VerifiedLedger.Proofs.Tree.LeftOutSiblings
import VerifiedLedger.Proofs.Accumulator.CompressedProofs
import VerifiedLedger.Proofs.SparseTree.CompressedProofs
import VerifiedLedger.Proofs.Client.Repeated
import VerifiedLedger.Proofs.Client.SavedBytes
import VerifiedLedger.Proofs.Evidence.RunParts
import VerifiedLedger.Proofs.Evidence.RunVersions
import VerifiedLedger.Proofs.Hash.Incremental
import VerifiedLedger.Proofs.Accumulator.RunWidths
import VerifiedLedger.Proofs.Bytes.BitViews
import VerifiedLedger.Proofs.Bytes.CommonPrefix
