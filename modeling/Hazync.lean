import Hazync.Lib.MerkleForest
import Hazync.Lib.LevelCache
import Hazync.Lib.Runs
import Hazync.Lib.Ledger
import Hazync.Lib.FoldTree
import Hazync.Lib.SortedMap
import Hazync.Lib.SwapRemove
import Hazync.Lib.Word64
import Hazync.Accumulator.Stump
import Hazync.Accumulator.Reference
import Hazync.Accumulator.SwapAndShrink
import Hazync.Accumulator.Forest
import Hazync.Accumulator.ForestCache
import Hazync.Accumulator.ForestJournal
import Hazync.Guest.Utreexo
import Hazync.Guest.Lockstep
import Hazync.Lib.ByteStrings
import Hazync.Hashing
import Hazync.Lib.SparseTree
import Hazync.Smt.Roots
import Hazync.Smt.Bip30
import Hazync.Smt.Keys
import Hazync.Smt.Full
import Hazync.Smt.History
import Hazync.Smt.Transition
import Hazync.Guest.Core
import Hazync.Guest.VerifyInput
import Hazync.Guest.Witness
import Hazync.Guest.Block
import Hazync.Guest.BlockRun
import Hazync.Guest.Accepted
import Hazync.Guest.InputWalk
import Hazync.Guest.Validated
import Hazync.Guest.Coverage
import Hazync.Guest.Created
import Hazync.Guest.Bookkeeping
import Hazync.Guest.Chunk
import Hazync.Guest.Range
import Hazync.Guest.ChunkTrace
import Hazync.Guest.ChunkSound
import Hazync.Bridge.SmtAdvance
import Hazync.Bridge.SmtWitness
import Hazync.Guest.OpTrue
import Hazync.Guest.CoinbaseSmt
import Hazync.Guest.Segmented
import Hazync.Guest.SegmentedPath
import Hazync.Guest.RangeTree
import Hazync.Guest.Counted
import Hazync.Guest.HeaderChain
import Hazync.Guest.Coins
import Hazync.Guest.Run
import Hazync.Guest.BlockValue
import Hazync.Lib.Residues
import Hazync.Guest.NoInflation
import Hazync.Guest.ChainBip30
import Hazync.Host.BoundaryDigest
import Hazync.Coordinator.Frontier
import Hazync.Coordinator.Steps
import Hazync.Coordinator.PeerSync
import Hazync.Coordinator.Covered
import Hazync.Coordinator.Offer
import Hazync.Lib.CarryLevels
import Hazync.SegServe.JoinSchedule
import Hazync.SegServe.Transfers
import Hazync.Bridge.Utxo
import Hazync.Coordinator.Clock
import Hazync.Guest.MedianTime
import Hazync.VerifierFfi.DumpExact
import Hazync.Accumulator.PresentRoots
import Hazync.Coordinator.ClaimHeld
import Hazync.Coordinator.Parking
import Hazync.Bridge.Carried
import Hazync.Bridge.Connect
import Hazync.Bridge.Tracks
import Hazync.Bridge.Walk
import Hazync.Bridge.Undo
import Hazync.Bridge.OwnDump
import Hazync.Bridge.Rewind
import Hazync.Bridge.RewindRuns
import Hazync.Bridge.RewindOverwrite
import Hazync.Bridge.Follow
import Hazync.Bridge.Replay
import Hazync.Bridge.ChainHashes
import Hazync.Bridge.OneChain
import Hazync.Bridge.ForkCheck
import Hazync.Bridge.FollowRuns
import Hazync.Bridge.FollowReorg
import Hazync.Bridge.SameLeaves
import Hazync.Bridge.GuestRuns
import Hazync.Bridge.TipBinds
import Hazync.Bridge.Snapshot
import Hazync.Bridge.SnapshotRecords
import Hazync.Bridge.SnapshotBound
import Hazync.Bridge.SnapshotOwn
import Hazync.Coordinator.HeldCommit
import Hazync.SponsorBot.OneReplay
import Hazync.Host.GenesisAnchored
import Hazync.Tip.OwnReceipts
import Hazync.Tip.SessionRuns
import Hazync.Lib.Rounding
import Hazync.Tip.SessionSpend
import Hazync.Coordinator.Spine
import Hazync.Deploy.PruneSafe
import Hazync.Tip.NoHole
import Hazync.Tip.NoOrphan
import Hazync.Guest.LibraryStump
import Hazync.Accumulator.PositionIndex
import Hazync.Guest.LeafPreimages
import Hazync.Lib.Buckets
import Hazync.Guest.Msm
import Hazync.Lib.Limbs
import Hazync.Guest.FieldBigint2
import Hazync.Guest.Signed30
import Hazync.Lib.LucasTest
import Hazync.Guest.FieldPrime
import Hazync.Guest.LiftX
import Hazync.Lib.GreedySplit
import Hazync.Host.PackChunks
import Hazync.Host.PackKeyed
import Hazync.Lib.WordStream
import Hazync.Host.PackedWire
import Hazync.Host.ChunkStream
import Hazync.Lib.SlidingWindow
import Hazync.Coordinator.RateLimit
import Hazync.Lib.Chains
import Hazync.Coordinator.Rotations
import Hazync.Lib.AlignedNodes
import Hazync.Coordinator.Folding
import Hazync.Lib.IntervalMerge
import Hazync.Coordinator.Contributions
import Hazync.Lib.Stretches
import Hazync.Coordinator.BlockMap
import Hazync.Coordinator.BotAuth
import Hazync.Coordinator.SpineSegments
import Hazync.Coordinator.Extender
import Hazync.Coordinator.SingleFlight
import Hazync.Deploy.SpineCopy
import Hazync.Lib.Parallel
import Hazync.Guest.WalkComplete
import Hazync.Guest.BlockComplete
import Hazync.Bridge.Bundle
import Hazync.Bridge.BundleSpends
import Hazync.Bridge.SmtCounts
import Hazync.Bridge.BundlePasses
import Hazync.Bridge.GetsThrough
import Hazync.Bridge.BundleRuns
import Hazync.Bridge.Files
import Hazync.Bridge.Killed
import Hazync.Bridge.KilledRuns
import Hazync.Bridge.KilledCheck
