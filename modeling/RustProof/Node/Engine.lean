/-
The node engine (`rp-node/src/node_engine.rs`): one state machine that takes inputs (ticks, peers, frames, storage
replies) and returns actions. `step` is the source's function; a step may panic (`Fault`) in the arithmetic of block
application, for a missing head, or in the decoder of a hostile snapshot.

`import_parked_blocks` recurses along parked children of a block that became head. Every call that goes on has removed a
key of `pending_blocks`, and nothing adds one, so the number of keys is enough fuel (`ImportRule.importParked`).
-/
import RustProof.Node.Message
import RustProof.Node.Blockchain

namespace RustProof

variable [Crypto]

abbrev PeerId := U8Array 32
abbrev Frame := List UInt8

/-! ## Contract -/

inductive PersistCompletedType where
  | snapshot
  | block
deriving DecidableEq, Repr

inductive NodeInput where
  | tick (nowMs : UInt64)
  | peerConnected (peer : PeerId)
  | peerDisconnected (peer : PeerId)
  | frameReceived (peer : PeerId) (frame : Frame)
  | localTransactionSubmitted (transaction : Transaction)
  | storageLoaded (blockHash : Hash) (stateBytes : Option (List UInt8))
  | persistCompleted (persistType : PersistCompletedType)
  | importRequested (peer : PeerId) (fromHeight toHeight : UInt64)

inductive NodeAction where
  | sendFrame (peer : PeerId) (frame : Frame)
  | broadcastFrame (frame : Frame)
  | persistBlock (block : Block)
  | persistSnapshot (blockHash : Hash) (stateBytes : List UInt8)
  | requestBlocks (peer : PeerId) (fromHeight toHeight : UInt64)
  | scheduleWake (atMs : UInt64)
  | cancelWake
  | reportEvent (message : String)
  | frameReceived (peer : PeerId)
  | persistCompleted (persistType : PersistCompletedType)
  | loadSnapshot (blockHash : Hash)

/-! ## State -/

structure ParkedBlock where
  peer : PeerId
  block : Block

structure PeerState where
  connected : Bool
  lastSeenMs : UInt64
deriving DecidableEq, Repr

structure PendingRequest where
  peer : PeerId
  fromHeight : UInt64
  toHeight : UInt64
  deadlineMs : UInt64
deriving DecidableEq

structure NodeEngine where
  blockchain : Blockchain
  peers : BTreeMap PeerId PeerState
  pendingRequests : List PendingRequest
  pendingBlocks : BTreeMap Hash (List ParkedBlock)
  currentTimeMs : UInt64
  scheduledWakeAtMs : Option UInt64

/-- `REQUEST_TIMEOUT_MS` -/
def requestTimeoutMs : UInt64 := 30000

namespace NodeEngine

def new (blockchain : Blockchain) : NodeEngine :=
  { blockchain := blockchain
    peers := .empty
    pendingRequests := []
    pendingBlocks := .empty
    currentTimeMs := 0
    scheduledWakeAtMs := none }

def restoreLatestSnapshot (e : NodeEngine) (block : Option Block) (stateBytes : Option (List UInt8)) :
    Except Fault (NodeEngine × List NodeAction) :=
  match block, stateBytes with
  | some block, some stateBytes =>
    match State.fromBytes stateBytes with
    | .error f => .error f
    | .ok (.error _) => .ok (e, [.reportEvent "invalid startup snapshot bytes"])
    | .ok (.ok restoredState) =>
      if block.stateRoot ≠ restoredState.computeStateRoot then
        .ok (e, [.reportEvent "startup snapshot state root mismatch"])
      else
        .ok ({ e with blockchain := Blockchain.restoreHead block restoredState },
          [.reportEvent "startup snapshot restored"])
  | _, _ => .ok (e, [.reportEvent "no snapshot restored"])

def pruneExpiredRequests (e : NodeEngine) (nowMs : UInt64) : NodeEngine :=
  { e with pendingRequests := e.pendingRequests.filter fun request => decide (request.deadlineMs > nowMs) }

/-- the earliest deadline of the open requests -/
def nextWakeAtMs (e : NodeEngine) : Option UInt64 := (e.pendingRequests.map PendingRequest.deadlineMs).min?

/-- `sync_wake_action`, with the action it pushes -/
def syncWakeAction (e : NodeEngine) : NodeEngine × List NodeAction :=
  if e.nextWakeAtMs = e.scheduledWakeAtMs then (e, [])
  else
    ({ e with scheduledWakeAtMs := e.nextWakeAtMs },
      match e.nextWakeAtMs with
      | some atMs => [.scheduleWake atMs]
      | none => [.cancelWake])

def relayTransaction (e : NodeEngine) (sourcePeer : PeerId) (transaction : Transaction) : List NodeAction :=
  let frame := (NetworkMessage.announceRequest (.transaction transaction)).toBytes
  (e.peers.entries.filter fun p => decide (p.1 ≠ sourcePeer ∧ p.2.connected = true)).map fun p => .sendFrame p.1 frame

def queueBlockRequest (e : NodeEngine) (peer : PeerId) (fromHeight toHeight : UInt64) : NodeEngine × NodeAction :=
  let request := ⟨peer, fromHeight, toHeight, saturatingAdd e.currentTimeMs requestTimeoutMs⟩
  ({ e with pendingRequests := e.pendingRequests ++ [request] }, .requestBlocks peer fromHeight toHeight)

def requestParentBlock (e : NodeEngine) (peer : PeerId) (parentHeight : UInt64) : NodeEngine × List NodeAction :=
  let (e, request) := e.queueBlockRequest peer parentHeight parentHeight
  (e, [.reportEvent "parent snapshot missing", request])

/-- `if imported_block.became_head`, go on with the blocks parked under it -/
def importIfHead (importChildren : NodeEngine → Hash → State → Except Fault (NodeEngine × List NodeAction))
    (e : NodeEngine) (blockHash : Hash) (imported : ImportedBlock) : Except Fault (NodeEngine × List NodeAction) :=
  if imported.becameHead then importChildren e blockHash imported.nextState else .ok (e, [])

/-- `for parked_block in parked_blocks`, with `importChildren` for the recursive call -/
def importEach (ck : OverflowChecks)
    (importChildren : NodeEngine → Hash → State → Except Fault (NodeEngine × List NodeAction)) (parentState : State) :
    List ParkedBlock → NodeEngine → Except Fault (NodeEngine × List NodeAction)
  | [], e => .ok (e, [])
  | parked :: rest, e =>
    match e.blockchain.addBlock ck parked.block parentState with
    | .error f => .error f
    | .ok (.error _) => do
      let (e, actions) ← importEach ck importChildren parentState rest e
      pure (e, .reportEvent "failed importing parked block" :: actions)
    | .ok (.ok (blockchain, imported)) => do
      let (e, children) ← importIfHead importChildren { e with blockchain := blockchain } parked.block.hash imported
      let (e, actions) ← importEach ck importChildren parentState rest e
      pure (e, .persistBlock parked.block :: .persistSnapshot parked.block.hash imported.nextState.toBytes ::
        (children ++ actions))

/-- `import_parked_blocks`, at most `fuel` calls deep -/
def importParked (ck : OverflowChecks) :
    (fuel : ℕ) → NodeEngine → Hash → State → Except Fault (NodeEngine × List NodeAction)
  | 0, _, _, _ => .error .diverges
  | fuel + 1, e, parentHash, parentState =>
    match e.pendingBlocks.get? parentHash with
    | none => .ok (e, [])
    | some parkedBlocks =>
      importEach ck (importParked ck fuel) parentState parkedBlocks
        { e with pendingBlocks := e.pendingBlocks.remove parentHash }

def importParkedBlocks (ck : OverflowChecks) (e : NodeEngine) (parentHash : Hash) (parentState : State) :
    Except Fault (NodeEngine × List NodeAction) :=
  importParked ck (e.pendingBlocks.len + 1) e parentHash parentState

def continueRequest (e : NodeEngine) (request : PendingRequest) (nextHeight : UInt64) :
    NodeEngine × List NodeAction :=
  if nextHeight = 0 then (e, [])
  else
    let nextToHeight :=
      if nextHeight ≤ request.toHeight then request.toHeight
      else saturatingAdd nextHeight (saturatingSub request.toHeight request.fromHeight)
    let (e, action) := e.queueBlockRequest request.peer nextHeight nextToHeight
    (e, [action])

/-- `self.pending_blocks.entry(block.previous_hash).or_default().push(..)` -/
def park (e : NodeEngine) (peer : PeerId) (block : Block) : NodeEngine :=
  let parked := e.pendingBlocks.getD block.previousHash [] ++ [⟨peer, block⟩]
  { e with pendingBlocks := e.pendingBlocks.insert block.previousHash parked }

def ingestBlock (ck : OverflowChecks) (e : NodeEngine) (peer : PeerId) (block : Block) :
    Except Fault (NodeEngine × List NodeAction) :=
  if e.blockchain.headHash = block.previousHash then
    match e.blockchain.addBlock ck block e.blockchain.state with
    | .error f => .error f
    | .ok (.error _) => .ok (e, [.reportEvent "failed importing block"])
    | .ok (.ok (blockchain, imported)) => do
      let (e, children) ← importIfHead (importParkedBlocks ck) { e with blockchain := blockchain } block.hash imported
      pure (e, .persistBlock block :: .persistSnapshot block.hash imported.nextState.toBytes ::
        .reportEvent "Block added" :: children)
  else .ok (e.park peer block, [.loadSnapshot block.previousHash])

/-- `for block in response.blocks` -/
def ingestBlocks (ck : OverflowChecks) (peer : PeerId) :
    List Block → NodeEngine → Except Fault (NodeEngine × List NodeAction)
  | [], e => .ok (e, [])
  | block :: blocks, e => do
    let (e, actions) ← e.ingestBlock ck peer block
    let (e, more) ← ingestBlocks ck peer blocks e
    pure (e, actions ++ more)

/-- `for request in &completed_requests` -/
def continueRequests (nextHeight : UInt64) : List PendingRequest → NodeEngine → NodeEngine × List NodeAction
  | [], e => (e, [])
  | request :: requests, e =>
    let (e, action) := e.continueRequest request nextHeight
    let (e, more) := continueRequests nextHeight requests e
    (e, action ++ more)

/-- the answer to a `SyncRequest` -/
def syncResponse (e : NodeEngine) (request : SyncRequest) : Except Fault SyncResponse := do
  let blocks ← e.blockchain.getBlocks request.fromHeight request.toHeight
  let earliestContiguousHeight ← e.blockchain.earliestContiguousHeight
  let latest ← e.blockchain.getLatestBlock
  match blocks.getLast? with
  | some block =>
    let hasMore := decide (block.height < latest.height)
    pure ⟨blocks, hasMore, if hasMore then some (saturatingAdd block.height 1) else none⟩
  | none =>
    pure ⟨blocks, false,
      if request.fromHeight < earliestContiguousHeight ∧ earliestContiguousHeight ≤ latest.height then
        some earliestContiguousHeight
      else none⟩

/-- the arm of `SyncResponse` -/
def handleSyncResponse (ck : OverflowChecks) (e : NodeEngine) (peer : PeerId) (response : SyncResponse) :
    Except Fault (NodeEngine × List NodeAction) := do
  let completedRequests := e.pendingRequests.filter fun request => decide (request.peer = peer)
  let e := { e with pendingRequests := e.pendingRequests.filter fun request => decide (request.peer ≠ peer) }
  let (e, actions) ← ingestBlocks ck peer response.blocks e
  let (e, actions) :=
    match response.nextHeight with
    | some nextHeight =>
      let (e, more) := continueRequests nextHeight completedRequests e
      (e, actions ++ more)
    | none => (e, actions)
  pure (e, if actions.isEmpty then [.frameReceived peer] else actions)

/-- the arm of `NewTransaction`; a refused transaction is reported with the error of the mempool -/
def announceTransaction (e : NodeEngine) (peer : PeerId) (tx : Transaction) : NodeEngine × List NodeAction :=
  match e.blockchain.addTransaction tx with
  | .ok (blockchain, added) =>
    let e := { e with blockchain := blockchain }
    (e, if added then e.relayTransaction peer tx else [])
  | .error error => (e, [.reportEvent error])

def handleMessage (ck : OverflowChecks) (e : NodeEngine) (peer : PeerId) :
    NetworkMessage → Except Fault (NodeEngine × List NodeAction)
  | .announceRequest ⟨.newBlock block⟩ => e.ingestBlock ck peer block
  | .announceRequest ⟨.newTransaction tx⟩ => .ok (e.announceTransaction peer tx)
  | .syncRequest request => do
    let response ← e.syncResponse request
    pure (e, [.sendFrame peer (NetworkMessage.syncResponse response).toBytes])
  | .syncResponse response => e.handleSyncResponse ck peer response
  | .announceResponse _ => .ok (e, [.frameReceived peer])

def handleStorageLoaded (ck : OverflowChecks) (e : NodeEngine) (blockHash : Hash) (stateBytes : Option (List UInt8)) :
    Except Fault (NodeEngine × List NodeAction) :=
  match (e.pendingBlocks.get? blockHash).bind List.head? with
  | none => .ok (e, [.reportEvent "unexpected snapshot result"])
  | some parked =>
    match stateBytes with
    | some bytes =>
      match State.fromBytes bytes with
      | .error f => .error f
      | .ok (.error _) => .ok (e, [.reportEvent "invalid snapshot bytes"])
      | .ok (.ok state) => importParkedBlocks ck e blockHash state
    | none => .ok (e.requestParentBlock parked.peer (saturatingSub parked.block.height 1))

def submitTransaction (e : NodeEngine) (tx : Transaction) : NodeEngine × List NodeAction :=
  match e.blockchain.addTransaction tx with
  | .ok (blockchain, added) =>
    ({ e with blockchain := blockchain },
      if added then [.broadcastFrame (NetworkMessage.announceRequest (.transaction tx)).toBytes] else [])
  | .error _ => (e, [.reportEvent "invalid transaction"])

def connectPeer (e : NodeEngine) (peer : PeerId) : Except Fault (NodeEngine × List NodeAction) := do
  let e := { e with peers := e.peers.insert peer ⟨true, 0⟩ }
  let latest ← e.blockchain.getLatestBlock
  let (e, request) := e.queueBlockRequest peer (saturatingAdd latest.height 1) (saturatingAdd latest.height 100)
  pure (e, [.reportEvent "peer connected", request])

/-- `step` before the wake action is appended -/
def handle (ck : OverflowChecks) (e : NodeEngine) : NodeInput → Except Fault (NodeEngine × List NodeAction)
  | .tick nowMs => .ok ({ e with currentTimeMs := nowMs }.pruneExpiredRequests nowMs, [])
  | .peerConnected peer => e.connectPeer peer
  | .peerDisconnected peer =>
    .ok ({ e with
        peers := e.peers.remove peer
        pendingRequests := e.pendingRequests.filter fun request => decide (request.peer ≠ peer) },
      [.reportEvent "peer disconnected"])
  | .frameReceived peer frame =>
    match NetworkMessage.fromBytes frame with
    | .ok message => e.handleMessage ck peer message
    | .error _ => .ok (e, [.reportEvent "invalid frame"])
  | .localTransactionSubmitted transaction => .ok (e.submitTransaction transaction)
  | .storageLoaded blockHash stateBytes => e.handleStorageLoaded ck blockHash stateBytes
  | .persistCompleted persistType => .ok (e, [.persistCompleted persistType])
  | .importRequested peer fromHeight toHeight =>
    let (e, request) := e.queueBlockRequest peer fromHeight toHeight
    .ok (e, [request])

def step (ck : OverflowChecks) (e : NodeEngine) (input : NodeInput) : Except Fault (NodeEngine × List NodeAction) := do
  let (e, actions) ← e.handle ck input
  let (e, wake) := e.syncWakeAction
  pure (e, actions ++ wake)

/-- with a head, serving a range fails only by a walk that does not end -/
theorem syncResponse_error {e : NodeEngine} {request : SyncRequest} {head : Block} {f : Fault}
    (hhead : e.blockchain.blockAt e.blockchain.headHash = some head) (h : e.syncResponse request = .error f) :
    f = .diverges := by
  unfold syncResponse at h
  cases hb : e.blockchain.getBlocks request.fromHeight request.toHeight with
  | error f' =>
    rw [hb] at h
    cases h
    exact Blockchain.getBlocks_error hhead hb
  | ok blocks =>
    rw [hb] at h
    cases he : e.blockchain.earliestContiguousHeight with
    | error f' =>
      rw [he] at h
      cases h
      exact Blockchain.earliestContiguousHeight_error hhead he
    | ok earliest =>
      rw [he, Blockchain.getLatestBlock_ok_iff.2 hhead] at h
      simp only [bind, Except.bind] at h
      split at h <;> cases h

end NodeEngine

end RustProof
