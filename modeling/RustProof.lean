import RustProof.Lib.BTreeMap
import RustProof.Core.Crypto
import RustProof.Core.Models
import RustProof.Core.State
import RustProof.Core.StateCodec
import RustProof.Core.Chain
import RustProof.Core.Sample
import RustProof.Core.Authorisation
import RustProof.Core.Replay
import RustProof.Lib.Postcard
import RustProof.Node.Message
import RustProof.Node.Blockchain
import RustProof.Node.Engine
import RustProof.Node.Rules
import RustProof.Node.Ledger
import RustProof.Storage.Backend
import RustProof.Storage.Sled
import RustProof.Storage.Nvs
import RustProof.Storage.Persistence
import RustProof.Node.Delivery
import RustProof.Lib.Window
import RustProof.Sync.Serve
import RustProof.Sync.CatchUp
import RustProof.Lib.Weight
import RustProof.Sync.Quiesce
import RustProof.Core.Commitment
import RustProof.Node.Pool
import RustProof.Storage.Restore
import RustProof.Node.Requests
import RustProof.Runtime.Wake
import RustProof.Runtime.Network
import RustProof.Runtime.Replies
import RustProof.Runtime.Session
import RustProof.Runtime.Turns
import RustProof.Lib.Links
import RustProof.Runtime.Peers
import RustProof.Sync.Paging
import RustProof.Core.Overflow
import RustProof.Storage.Maps
import RustProof.Runtime.Registry
import RustProof.Runtime.Embedded
import RustProof.Runtime.Routing
import RustProof.Runtime.Hello
import RustProof.Lib.Duplex
import RustProof.Runtime.Multistream
import RustProof.Lib.Frames
import RustProof.Runtime.Noise
import RustProof.Runtime.NoiseRead
import RustProof.Runtime.NoisePipe
import RustProof.Lib.Lottery
import RustProof.Core.Selection
import RustProof.Lib.Best
import RustProof.Node.BestPaying
import RustProof.Runtime.Reuse
import RustProof.Storage.Startup
import RustProof.Sync.Asking
import RustProof.Node.Discard
import RustProof.Sync.Ranges
import RustProof.Core.Decoding
import RustProof.Runtime.Framing
import RustProof.Lib.Fields
import RustProof.Runtime.Protobuf
import RustProof.Node.Accounting
import RustProof.Lib.Mailbox
import RustProof.Runtime.Deferred
import RustProof.Core.Statement
import RustProof.Lib.Flood
import RustProof.Lib.Once
import RustProof.Node.Gossip
import RustProof.Node.HeadState
import RustProof.Runtime.Handshake
import RustProof.Runtime.HelloExchange
import RustProof.Lib.Calls
import RustProof.Runtime.Calls
import RustProof.Runtime.Restarts
