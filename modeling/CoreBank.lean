import CoreBank.Ledger.Lookup
import CoreBank.Ledger.Truncated
import CoreBank.Hlc.Clock
import CoreBank.Shard.Ring
import CoreBank.Shard.Latched
import CoreBank.Shard.Outcome
import CoreBank.Shard.Conservation
import CoreBank.Shard.Resolved
import CoreBank.Raft.Slices
import CoreBank.Raft.ElectionSafety
import CoreBank.Raft.CommitRule
import CoreBank.Raft.Agreement
import CoreBank.Raft.Confirmed
import CoreBank.Raft.Reads
import CoreBank.Raft.Boot
import CoreBank.Raft.FailedInstall
import CoreBank.Raft.SelfRemoval
import CoreBank.Rpc.Admission
import CoreBank.Rpc.Redirect
import CoreBank.Rpc.Requests
import CoreBank.Rpc.Propose
import CoreBank.Rpc.Submit
