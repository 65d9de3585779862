import Cetcd.Apply.Batch
import Cetcd.Auth.Base64
import Cetcd.Auth.Decimals
import Cetcd.Auth.Intervals
import Cetcd.Auth.Rights
import Cetcd.Auth.Root
import Cetcd.Client.Read
import Cetcd.Durable.OneVote
import Cetcd.Http2.Grpc
import Cetcd.Lease.Due
import Cetcd.Lease.Expiry
import Cetcd.Member.Change
import Cetcd.Member.Completes
import Cetcd.Member.Learner
import Cetcd.Member.Start
import Cetcd.Mvcc.Hash
import Cetcd.Net.Inherit
import Cetcd.Peer.Queue
import Cetcd.Peer.Wire
import Cetcd.Protocol.Commit
import Cetcd.Raft.Advance
import Cetcd.Raft.Bounds
import Cetcd.Repair.Converge
import Cetcd.Repair.Records
import Cetcd.Rpc.Compares
import Cetcd.Rpc.Decode
import Cetcd.Rpc.Leases
import Cetcd.Rpc.Notify
import Cetcd.Rpc.Rows
import Cetcd.Rpc.Watchers
import Cetcd.Server.Codec
import Cetcd.Server.HardState
import Cetcd.Server.Replay
import Cetcd.Snap.Complete
import Cetcd.Snap.Refused
