import MerkleBuffer.Database.Cap
import MerkleBuffer.Main
import MerkleBuffer.Store.Faulty
import MerkleBuffer.Store.Memory
import MerkleBuffer.Proofs.Buffer.Order
import MerkleBuffer.Proofs.Buffer.Held
import MerkleBuffer.Proofs.Buffer.WellFormed
import MerkleBuffer.Proofs.Buffer.Counts
import MerkleBuffer.Proofs.Buffer.ChildrenFirst
import MerkleBuffer.Proofs.Buffer.Walk
import MerkleBuffer.Proofs.Buffer.Reach
import MerkleBuffer.Proofs.Buffer.Discards
import MerkleBuffer.Proofs.Database.Writes
import MerkleBuffer.Proofs.Database.Runs
import MerkleBuffer.Proofs.ParentCounts
import MerkleBuffer.Proofs.PinSafety
import MerkleBuffer.Proofs.Store.Lawful
import MerkleBuffer.Proofs.Store.Regular
import MerkleBuffer.Proofs.Database.Intact
import MerkleBuffer.Proofs.Store.Recovery
import MerkleBuffer.Proofs.WrappedCount
import MerkleBuffer.Proofs.Durability
import MerkleBuffer.Proofs.CrashConsistency
import MerkleBuffer.Proofs.Database.Flushes
import MerkleBuffer.Proofs.Database.Recorded
import MerkleBuffer.Proofs.Retries
import MerkleBuffer.Proofs.WriteBeforeEvict
import MerkleBuffer.Proofs.Buffer.Excess
import MerkleBuffer.Proofs.Collection
import MerkleBuffer.Proofs.ReferencedData
import MerkleBuffer.Proofs.Trie.Codec
import MerkleBuffer.Proofs.Store.Lifetime
import MerkleBuffer.Proofs.Store.Steady
import MerkleBuffer.Proofs.Database.Coherent
import MerkleBuffer.Proofs.CacheTransparency
import MerkleBuffer.Proofs.FirstWriteWins
import MerkleBuffer.Proofs.TornTail
import MerkleBuffer.Proofs.StagingOrder
import MerkleBuffer.Proofs.PrefixCode
import MerkleBuffer.Proofs.Buffer.Sizes
import MerkleBuffer.Proofs.Buffer.Checked
import MerkleBuffer.Proofs.ExactSizes
import MerkleBuffer.Proofs.BatchSize
import MerkleBuffer.Proofs.Database.Survey
import MerkleBuffer.Proofs.SurveyAfterCommit
import MerkleBuffer.Proofs.Trie.Spelling
import MerkleBuffer.Proofs.CanonicalForm
import MerkleBuffer.Proofs.Buffer.Cascade
import MerkleBuffer.Proofs.Database.Reordered
import MerkleBuffer.Proofs.ReleaseOrder
import MerkleBuffer.Proofs.ExactCollection
import MerkleBuffer.Proofs.StoredSubtree
import MerkleBuffer.Proofs.Buffer.Oldest
import MerkleBuffer.Proofs.Database.CapWalk
import MerkleBuffer.Proofs.ShortestPrefix
import MerkleBuffer.Proofs.Buffer.OnTop
import MerkleBuffer.Proofs.NoTrace
import MerkleBuffer.Proofs.Store.Scanning
import MerkleBuffer.Proofs.Store.Attempts
import MerkleBuffer.Proofs.FailedAppends
import MerkleBuffer.Proofs.StructuralReads
import MerkleBuffer.Proofs.Opening
import MerkleBuffer.Proofs.Lists
import MerkleBuffer.Proofs.Cache.Shard
import MerkleBuffer.Proofs.CacheAccounting
import MerkleBuffer.Proofs.RecentUse
import MerkleBuffer.Proofs.Buffer.Preimages
import MerkleBuffer.Proofs.PreimageKeeping
import MerkleBuffer.Proofs.CounterBalance
import MerkleBuffer.Proofs.GreedyBatches
import MerkleBuffer.Proofs.CommandLine.OnDatabase
import MerkleBuffer.Proofs.VerifyReachability
import MerkleBuffer.Proofs.Volume
import MerkleBuffer.Proofs.CommandLine.StoreAt
import MerkleBuffer.Proofs.Trie.ValueTrie
import MerkleBuffer.Proofs.Database.ValueTrie
import MerkleBuffer.Proofs.CommandLine.Invocations
import MerkleBuffer.Proofs.InsertedValues
import MerkleBuffer.Proofs.Json.Grammar
import MerkleBuffer.Proofs.Json.Tokens
import MerkleBuffer.Proofs.Json.Skipping
import MerkleBuffer.Proofs.Config.Text
import MerkleBuffer.Proofs.Config.Place
import MerkleBuffer.Proofs.SettingsFile
