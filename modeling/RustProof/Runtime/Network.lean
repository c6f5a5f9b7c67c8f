/-
The network manager of rp-runtime (`rp-runtime/src/network/manager.rs`) between the swarm and the engine.

It keeps which node is behind which transport peer, turns what the swarm reports into events for the engine, and carries
out the engine's commands. A sync request that comes in leaves its response channel in a queue of its node; a sync
response that goes out takes the first channel of the queue. A node hello that passed `NodeHelloVerifier::verify` is the
event `nodeHello`; the swarm itself (connections, identify, kademlia, ping) is outside, and what is asked of it is a
`SwarmCall`.

`RuntimeEvent.run_commands` is what the engine sends to the manager: one response for a sync request, and for all other
events requests for blocks and announcements.
-/
import RustProof.Runtime.Wake

namespace RustProof

/-- libp2p's `PeerId`, as bytes -/
abbrev TransportPeer := List UInt8

/-- `ResponseChannel<SyncResponse>`, numbered by the swarm: every inbound request has its own -/
abbrev Channel := ℕ

abbrev OutboundRequestId := ℕ

section Network

variable [Crypto]

inductive NetworkCommand where
  | sendFrame (peer : PeerId) (frame : Frame)
  | broadcastFrame (frame : Frame)
  | requestBlocks (peer : PeerId) (fromHeight toHeight : UInt64)

/-- the command the node manager sends to the network manager for an action -/
def NodeAction.networkCommand : NodeAction → Option NetworkCommand
  | .sendFrame peer frame => some (.sendFrame peer frame)
  | .broadcastFrame frame => some (.broadcastFrame frame)
  | .requestBlocks peer fromHeight toHeight => some (.requestBlocks peer fromHeight toHeight)
  | _ => none

structure VerifiedPeer where
  nodePeerId : PeerId
  maxBlocksPerChunk : UInt16

/-- what the swarm reports -/
inductive SwarmEvent where
  | connectionClosed (peer : TransportPeer)
  /-- whether the agent version starts with `rp-runtime/` -/
  | identifyReceived (peer : TransportPeer) (host : Bool)
  | gossipsubMessage (propagationSource : TransportPeer) (data : Frame)
  | nodeHello (peer : TransportPeer) (verified : VerifiedPeer)
  | syncRequest (peer : TransportPeer) (request : SyncRequest) (channel : Channel)
  | syncResponse (requestId : OutboundRequestId) (response : SyncResponse)
  | syncOutboundFailure (requestId : OutboundRequestId)
  | announceRequest (peer : TransportPeer) (request : AnnounceRequest)
  | announceResponse (peer : TransportPeer) (response : AnnounceResponse)

/-- what is asked of the swarm -/
inductive SwarmCall where
  | publish (frame : Frame)
  | announceRequest (peer : TransportPeer) (request : AnnounceRequest)
  | announceResponse (peer : TransportPeer) (response : AnnounceResponse)
  | syncRequest (peer : TransportPeer) (request : SyncRequest)
  | syncResponse (channel : Channel) (response : SyncResponse)

structure NetworkManager where
  peerByNode : BTreeMap PeerId TransportPeer
  nodeByTransport : BTreeMap TransportPeer PeerId
  peerMaxBlocksPerChunk : BTreeMap PeerId UInt16
  hostTransportPeers : BTreeMap TransportPeer Unit
  pendingSyncResponses : BTreeMap PeerId (List Channel)
  outboundSyncRequests : BTreeMap OutboundRequestId PeerId
  /-- the swarm's counter -/
  nextRequestId : OutboundRequestId

namespace NetworkManager

def new : NetworkManager :=
  { peerByNode := .empty
    nodeByTransport := .empty
    peerMaxBlocksPerChunk := .empty
    hostTransportPeers := .empty
    pendingSyncResponses := .empty
    outboundSyncRequests := .empty
    nextRequestId := 0 }

/-- the channels that wait for a response to `peer` -/
def queue (m : NetworkManager) (peer : PeerId) : List Channel := m.pendingSyncResponses.getD peer []

/-! ## Commands -/

def clampSyncRequest (m : NetworkManager) (peer : PeerId) (request : SyncRequest) : SyncRequest :=
  request.clamp (m.peerMaxBlocksPerChunk.get? peer)

def sendSyncRequest (m : NetworkManager) (peer : PeerId) (request : SyncRequest) : NetworkManager × List SwarmCall :=
  match m.peerByNode.get? peer with
  | none => (m, [])
  | some transportPeer =>
    ({ m with
        outboundSyncRequests := m.outboundSyncRequests.insert m.nextRequestId peer
        nextRequestId := m.nextRequestId + 1 },
      [.syncRequest transportPeer (m.clampSyncRequest peer request)])

def sendSyncResponse (m : NetworkManager) (peer : PeerId) (response : SyncResponse) : NetworkManager × List SwarmCall :=
  match m.pendingSyncResponses.get? peer with
  | none => (m, [])
  | some [] => (m, [])
  | some (channel :: queue) =>
    ({ m with
        pendingSyncResponses :=
          if queue.isEmpty then m.pendingSyncResponses.remove peer else m.pendingSyncResponses.insert peer queue },
      [.syncResponse channel response])

/-- an error ends the manager -/
def sendFrame (m : NetworkManager) (peer : PeerId) (frame : Frame) : Except String (NetworkManager × List SwarmCall) :=
  match m.peerByNode.get? peer with
  | none => .ok (m, [])
  | some transportPeer =>
    match NetworkMessage.fromBytes frame with
    | .error _ => .error "invalid outbound network frame"
    | .ok (.announceRequest request) => .ok (m, [.announceRequest transportPeer request])
    | .ok (.syncRequest request) => .ok (m.sendSyncRequest peer request)
    | .ok (.syncResponse response) => .ok (m.sendSyncResponse peer response)
    | .ok (.announceResponse _) => .ok (m, [])

/-- `for peer in peers`, hosts apart: they get the frame over gossipsub -/
def sendFrames (frame : Frame) : List PeerId → NetworkManager → Except String (NetworkManager × List SwarmCall)
  | [], m => .ok (m, [])
  | peer :: peers, m =>
    if (m.peerByNode.get? peer).any m.hostTransportPeers.contains then sendFrames frame peers m
    else do
      let (m, calls) ← m.sendFrame peer frame
      let (m, more) ← sendFrames frame peers m
      pure (m, calls ++ more)

def handleCommand (m : NetworkManager) : NetworkCommand → Except String (NetworkManager × List SwarmCall)
  | .sendFrame peer frame => m.sendFrame peer frame
  | .broadcastFrame frame => do
    let published : List SwarmCall :=
      match NetworkMessage.fromBytes frame with
      | .ok (.announceRequest _) => [.publish frame]
      | _ => []
    let (m, calls) ← sendFrames frame (m.peerByNode.entries.map Prod.fst) m
    pure (m, published ++ calls)
  | .requestBlocks peer fromHeight toHeight => .ok (m.sendSyncRequest peer ⟨fromHeight, toHeight⟩)

/-! ## Events of the swarm -/

def registerVerifiedPeer (m : NetworkManager) (transportPeer : TransportPeer) (verified : VerifiedPeer) :
    NetworkManager × List RuntimeEvent :=
  let nodePeer := verified.nodePeerId
  let previousTransport := m.peerByNode.get? nodePeer
  let previousNode := m.nodeByTransport.get? transportPeer
  let peerByNode := m.peerByNode.insert nodePeer transportPeer
  let nodeByTransport := m.nodeByTransport.insert transportPeer nodePeer
  let m := { m with
    peerMaxBlocksPerChunk := m.peerMaxBlocksPerChunk.insert nodePeer verified.maxBlocksPerChunk
    nodeByTransport :=
      match previousTransport with
      | some previous => if previous ≠ transportPeer then nodeByTransport.remove previous else nodeByTransport
      | none => nodeByTransport
    peerByNode :=
      match previousNode with
      | some previous => if previous ≠ nodePeer then peerByNode.remove previous else peerByNode
      | none => peerByNode }
  (m, if previousTransport ≠ some transportPeer ∨ previousNode ≠ some nodePeer then [.peerConnected nodePeer] else [])

def unregisterTransportPeer (m : NetworkManager) (transportPeer : TransportPeer) : NetworkManager × List RuntimeEvent :=
  match m.nodeByTransport.get? transportPeer with
  | none => (m, [])
  | some nodePeer =>
    ({ m with
        nodeByTransport := m.nodeByTransport.remove transportPeer
        peerByNode := m.peerByNode.remove nodePeer
        peerMaxBlocksPerChunk := m.peerMaxBlocksPerChunk.remove nodePeer
        hostTransportPeers := m.hostTransportPeers.remove transportPeer
        pendingSyncResponses := m.pendingSyncResponses.remove nodePeer
        outboundSyncRequests := m.outboundSyncRequests.retain fun _ pendingPeer => decide (pendingPeer ≠ nodePeer) },
      [.peerDisconnected nodePeer])

def handleSwarmEvent (m : NetworkManager) : SwarmEvent → NetworkManager × List RuntimeEvent × List SwarmCall
  | .connectionClosed peer =>
    let (m, events) := m.unregisterTransportPeer peer
    (m, events, [])
  | .identifyReceived peer host =>
    ({ m with
        hostTransportPeers := if host then m.hostTransportPeers.insert peer () else m.hostTransportPeers.remove peer },
      [], [])
  | .gossipsubMessage propagationSource data =>
    match m.nodeByTransport.get? propagationSource with
    | none => (m, [], [])
    | some nodePeer => (m, [.frameReceived nodePeer data], [])
  | .nodeHello peer verified =>
    let (m, events) := m.registerVerifiedPeer peer verified
    (m, events, [])
  | .syncRequest peer request channel =>
    match m.nodeByTransport.get? peer with
    | none => (m, [], [.syncResponse channel ⟨[], false, none⟩])
    | some nodePeer =>
      ({ m with pendingSyncResponses := m.pendingSyncResponses.insert nodePeer (m.queue nodePeer ++ [channel]) },
        [.frameReceived nodePeer (NetworkMessage.syncRequest request).toBytes], [])
  | .syncResponse requestId response =>
    match m.outboundSyncRequests.get? requestId with
    | none => (m, [], [])
    | some nodePeer =>
      ({ m with outboundSyncRequests := m.outboundSyncRequests.remove requestId },
        [.frameReceived nodePeer (NetworkMessage.syncResponse response).toBytes], [])
  | .syncOutboundFailure requestId =>
    ({ m with outboundSyncRequests := m.outboundSyncRequests.remove requestId }, [], [])
  | .announceRequest peer request =>
    match m.nodeByTransport.get? peer with
    | none => (m, [], [.announceResponse peer ⟨false⟩])
    | some nodePeer =>
      (m, [.frameReceived nodePeer (NetworkMessage.announceRequest request).toBytes], [.announceResponse peer ⟨true⟩])
  | .announceResponse peer response =>
    match m.nodeByTransport.get? peer with
    | none => (m, [], [])
    | some nodePeer => (m, [.frameReceived nodePeer (NetworkMessage.announceResponse response).toBytes], [])

end NetworkManager

/-- the channel of an inbound sync request -/
def SwarmEvent.channel : SwarmEvent → Option Channel
  | .syncRequest _ _ channel => some channel
  | _ => none

namespace NetworkManager

/-! ## The queues of response channels -/

omit [Crypto] in
theorem queue_insert (m : NetworkManager) (peer n : PeerId) (channels : List Channel) :
    queue { m with pendingSyncResponses := m.pendingSyncResponses.insert peer channels } n =
      if peer = n then channels else m.queue n :=
  BTreeMap.getD_insert _ _ _ _ _

omit [Crypto] in
theorem queue_remove (m : NetworkManager) (peer n : PeerId) :
    queue { m with pendingSyncResponses := m.pendingSyncResponses.remove peer } n =
      if peer = n then [] else m.queue n := by
  simp only [queue, BTreeMap.getD, BTreeMap.get?_remove]
  split_ifs
  · rfl
  · rfl

/-- an inbound sync request of a known peer puts its channel behind the others; what else the swarm reports leaves a queue
alone or drops it, and has no channel -/
theorem handleSwarmEvent_queue (m : NetworkManager) (event : SwarmEvent) :
    (∃ peer request channel node, event = .syncRequest peer request channel ∧ m.nodeByTransport.get? peer = some node ∧
      (m.handleSwarmEvent event).2.1 = [.frameReceived node (NetworkMessage.syncRequest request).toBytes] ∧
      ∀ n, (m.handleSwarmEvent event).1.queue n = if node = n then m.queue n ++ [channel] else m.queue n) ∨
    (∀ n, (m.handleSwarmEvent event).1.queue n = m.queue n ∨ (m.handleSwarmEvent event).1.queue n = []) ∧
      ((m.handleSwarmEvent event).2.1 = [] ∨ event.channel = none) := by
  cases event with
  | connectionClosed peer =>
    refine .inr ⟨fun n => ?_, .inr rfl⟩
    simp only [handleSwarmEvent, unregisterTransportPeer]
    split
    · exact .inl rfl
    · rename_i node _
      rcases eq_or_ne node n with heq | hne
      · exact .inr ((queue_remove m node n).trans (if_pos heq))
      · exact .inl ((queue_remove m node n).trans (if_neg hne))
  | identifyReceived peer host => exact .inr ⟨fun n => .inl rfl, .inl rfl⟩
  | gossipsubMessage source data =>
    refine .inr ⟨fun n => .inl ?_, .inr rfl⟩
    simp only [handleSwarmEvent]
    split <;> rfl
  | nodeHello peer verified => exact .inr ⟨fun n => .inl rfl, .inr rfl⟩
  | syncRequest peer request channel =>
    cases hnode : m.nodeByTransport.get? peer with
    | none =>
      refine .inr ⟨fun n => .inl ?_, .inl ?_⟩
      · simp only [handleSwarmEvent, hnode]
      · simp only [handleSwarmEvent, hnode]
    | some node =>
      refine .inl ⟨peer, request, channel, node, rfl, hnode, ?_, fun n => ?_⟩
      · simp only [handleSwarmEvent, hnode]
      · simp only [handleSwarmEvent, hnode]
        rw [queue_insert]
        split_ifs with heq
        · rw [heq]
        · rfl
  | syncResponse requestId response =>
    refine .inr ⟨fun n => .inl ?_, .inr rfl⟩
    simp only [handleSwarmEvent]
    split <;> rfl
  | syncOutboundFailure requestId => exact .inr ⟨fun n => .inl rfl, .inl rfl⟩
  | announceRequest peer request =>
    refine .inr ⟨fun n => .inl ?_, .inr rfl⟩
    simp only [handleSwarmEvent]
    split <;> rfl
  | announceResponse peer response =>
    refine .inr ⟨fun n => .inl ?_, .inr rfl⟩
    simp only [handleSwarmEvent]
    split <;> rfl

theorem sendSyncRequest_queue (m : NetworkManager) (peer : PeerId) (request : SyncRequest) :
    (∀ n, (m.sendSyncRequest peer request).1.queue n = m.queue n) ∧
      ∀ channel response, .syncResponse channel response ∉ (m.sendSyncRequest peer request).2 := by
  unfold sendSyncRequest
  split
  · exact ⟨fun _ => rfl, fun _ _ hmem => nomatch hmem⟩
  · refine ⟨fun _ => rfl, fun channel response hmem => ?_⟩
    cases List.mem_singleton.1 hmem

/-- a response goes out on the first channel of the queue, if there is one -/
theorem sendSyncResponse_queue (m : NetworkManager) (peer : PeerId) (response : SyncResponse) :
    m.queue peer = [] ∧ m.sendSyncResponse peer response = (m, []) ∨
    ∃ channel rest, m.queue peer = channel :: rest ∧
      (m.sendSyncResponse peer response).2 = [.syncResponse channel response] ∧
      ∀ n, (m.sendSyncResponse peer response).1.queue n = if peer = n then rest else m.queue n := by
  unfold sendSyncResponse
  split
  · rename_i hnone
    refine .inl ⟨?_, rfl⟩
    rw [queue, BTreeMap.getD, hnone]
    rfl
  · rename_i hnil
    refine .inl ⟨?_, rfl⟩
    rw [queue, BTreeMap.getD, hnil]
    rfl
  · rename_i channel rest hcons
    refine .inr ⟨channel, rest, ?_, rfl, fun n => ?_⟩
    · rw [queue, BTreeMap.getD, hcons]
      rfl
    · dsimp only
      split_ifs with hempty hn hn
      · rw [queue_remove, if_pos hn, List.isEmpty_iff.1 hempty]
      · rw [queue_remove, if_neg hn]
      · rw [queue_insert, if_pos hn]
      · rw [queue_insert, if_neg hn]

end NetworkManager

/-! ## What the engine sends -/

/-- the node behind a sync request, with the request -/
def RuntimeEvent.ask : RuntimeEvent → Option (PeerId × SyncRequest)
  | .frameReceived peer frame =>
    match NetworkMessage.fromBytes frame with
    | .ok (.syncRequest request) => some (peer, request)
    | _ => none
  | _ => none

/-- a request for blocks or an announcement -/
def NetworkCommand.Unasked (c : NetworkCommand) : Prop :=
  (∃ peer fromHeight toHeight, c = .requestBlocks peer fromHeight toHeight) ∨
    ∃ peer request, c = .sendFrame peer (NetworkMessage.announceRequest request).toBytes

namespace NodeEngine

variable {ck : OverflowChecks} {e e' : NodeEngine} {acts : List NodeAction}

/-- all that goes to the network is unasked -/
def Unasked (acts : List NodeAction) : Prop := ∀ a ∈ acts, ∀ c, a.networkCommand = some c → c.Unasked

theorem Unasked.nil : Unasked [] := fun _ ha => nomatch ha

theorem Unasked.append {acts acts' : List NodeAction} (h : Unasked acts) (h' : Unasked acts') : Unasked (acts ++ acts') := by
  intro a ha
  rcases List.mem_append.1 ha with ha | ha
  · exact h a ha
  · exact h' a ha

theorem Unasked.of_none {a : NodeAction} (h : a.networkCommand = none) : Unasked [a] := by
  intro b hb c hc
  rw [List.mem_singleton.1 hb, h] at hc
  cases hc

theorem Unasked.requestBlocks (peer : PeerId) (fromHeight toHeight : UInt64) :
    Unasked [.requestBlocks peer fromHeight toHeight] := by
  intro b hb c hc
  rw [List.mem_singleton.1 hb] at hc
  exact .inl ⟨peer, fromHeight, toHeight, (Option.some.inj hc).symm⟩

theorem importFrame_unasked : ImportFrame fun _ _ acts => Unasked acts where
  refl _ := Unasked.nil
  trans := Unasked.append
  report _ _ := Unasked.of_none rfl
  add _ _ _ _ := (Unasked.of_none rfl).append (Unasked.of_none rfl)
  take _ _ := Unasked.nil
  park _ _ _ := Unasked.of_none rfl

theorem continueRequests_unasked (n : UInt64) (requests : List PendingRequest) (e : NodeEngine) :
    Unasked (continueRequests n requests e).2 := by
  induction requests generalizing e with
  | nil => exact Unasked.nil
  | cons r requests ih =>
    rw [continueRequests]
    refine Unasked.append ?_ (ih _)
    unfold continueRequest
    split_ifs
    · exact Unasked.nil
    · exact Unasked.requestBlocks _ _ _
    · exact Unasked.requestBlocks _ _ _

theorem handleSyncResponse_unasked {peer : PeerId} {response : SyncResponse}
    (h : e.handleSyncResponse ck peer response = .ok (e', acts)) : Unasked acts := by
  unfold handleSyncResponse at h
  obtain ⟨⟨e₁, acts₁⟩, hingest, h⟩ := bind_ok h
  have hblocks : Unasked acts₁ := importFrame_unasked.ingestBlocks _ hingest
  have hack : ∀ l : List NodeAction, Unasked l → Unasked (if l.isEmpty then [.frameReceived peer] else l) := by
    intro l hl
    split_ifs
    · exact Unasked.of_none rfl
    · exact hl
  cases hn : response.nextHeight with
  | none =>
    rw [hn] at h
    cases h
    exact hack _ hblocks
  | some n =>
    rw [hn] at h
    cases h
    exact hack _ (hblocks.append (continueRequests_unasked n _ e₁))

theorem announceTransaction_unasked (e : NodeEngine) (peer : PeerId) (tx : Transaction) :
    Unasked (e.announceTransaction peer tx).2 := by
  unfold announceTransaction
  split
  · dsimp only
    split_ifs
    · intro a ha c hc
      obtain ⟨p, -, rfl⟩ := List.mem_map.1 ha
      exact .inr ⟨p.1, _, (Option.some.inj hc).symm⟩
    · exact Unasked.nil
  · exact Unasked.of_none rfl

/-- all messages but a sync request -/
theorem handleMessage_unasked {peer : PeerId} {message : NetworkMessage} (hother : ∀ request, message ≠ .syncRequest request)
    (h : e.handleMessage ck peer message = .ok (e', acts)) : Unasked acts := by
  match message with
  | .announceRequest ⟨.newBlock block⟩ => exact importFrame_unasked.ingestBlock h
  | .announceRequest ⟨.newTransaction tx⟩ =>
    have heq : e.announceTransaction peer tx = (e', acts) := Except.ok.inj h
    have hunasked := announceTransaction_unasked e peer tx
    rwa [heq] at hunasked
  | .syncRequest request => exact absurd rfl (hother request)
  | .syncResponse response => exact handleSyncResponse_unasked h
  | .announceResponse response =>
    cases h
    exact Unasked.of_none rfl

theorem handleStorageLoaded_unasked {blockHash : Hash} {stateBytes : Option (List UInt8)}
    (h : e.handleStorageLoaded ck blockHash stateBytes = .ok (e', acts)) : Unasked acts := by
  unfold handleStorageLoaded at h
  split at h
  · cases h
    exact Unasked.of_none rfl
  split at h
  · split at h
    · cases h
    · cases h
      exact Unasked.of_none rfl
    · exact importFrame_unasked.importParkedBlocks h
  · cases h
    exact (Unasked.of_none rfl).append (Unasked.requestBlocks _ _ _)

/-- the wake action does not go to the network -/
theorem syncWakeAction_commands (e : NodeEngine) : e.syncWakeAction.2.filterMap NodeAction.networkCommand = [] := by
  unfold syncWakeAction
  split_ifs
  · rfl
  · dsimp only
    split
    · rfl
    · rfl

theorem step_unasked {input : NodeInput} (hhandle : ∀ e₁ acts₁, e.handle ck input = .ok (e₁, acts₁) → Unasked acts₁)
    (h : e.step ck input = .ok (e', acts)) : Unasked acts := by
  obtain ⟨⟨e₁, acts₁⟩, hfirst, h⟩ := bind_ok h
  cases h
  refine (hhandle e₁ acts₁ hfirst).append fun a ha c hc => ?_
  rw [List.filterMap_eq_nil_iff.1 (syncWakeAction_commands e₁) a ha] at hc
  cases hc

/-- a sync request is answered with one frame -/
theorem step_ask {peer : PeerId} {frame : Frame} {request : SyncRequest}
    (hframe : NetworkMessage.fromBytes frame = .ok (.syncRequest request))
    (h : e.step ck (.frameReceived peer frame) = .ok (e', acts)) :
    ∃ r, e.syncResponse request = .ok r ∧
      acts.filterMap NodeAction.networkCommand = [.sendFrame peer (NetworkMessage.syncResponse r).toBytes] := by
  obtain ⟨⟨e₁, acts₁⟩, hfirst, h⟩ := bind_ok h
  simp only [handle, hframe, handleMessage] at hfirst
  obtain ⟨r, hr, hfirst⟩ := bind_ok hfirst
  cases hfirst
  have hacts : [.sendFrame peer (NetworkMessage.syncResponse r).toBytes] ++ e.syncWakeAction.2 = acts :=
    congrArg Prod.snd (Except.ok.inj h)
  refine ⟨r, hr, ?_⟩
  rw [← hacts, List.filterMap_append, syncWakeAction_commands]
  rfl

end NodeEngine

/-- **What the engine sends.** A sync request makes it send exactly one frame to the network manager, its response; no
other event makes it send a response. -/
theorem RuntimeEvent.run_commands {ck : OverflowChecks} {e e' : NodeEngine} {event : RuntimeEvent} {acts : List NodeAction}
    (h : event.run ck e = .ok (e', acts)) :
    (∀ peer request, event.ask = some (peer, request) → ∃ r, e.syncResponse request = .ok r ∧
      acts.filterMap NodeAction.networkCommand = [.sendFrame peer (NetworkMessage.syncResponse r).toBytes]) ∧
    (event.ask = none → NodeEngine.Unasked acts) := by
  cases event with
  | frameReceived peer frame =>
    constructor
    · intro peer' request hask
      simp only [ask] at hask
      split at hask
      · rename_i request' hframe
        cases hask
        exact NodeEngine.step_ask hframe h
      · cases hask
    · intro hask
      refine NodeEngine.step_unasked (fun e₁ acts₁ hhandle => ?_) h
      simp only [NodeEngine.handle] at hhandle
      split at hhandle
      · rename_i message hframe
        refine NodeEngine.handleMessage_unasked ?_ hhandle
        rintro request rfl
        simp only [ask, hframe] at hask
        cases hask
      · cases hhandle
        exact NodeEngine.Unasked.of_none rfl
  | latestSnapshotLoaded block stateBytes =>
    refine ⟨fun _ _ hask => (by cases hask), fun _ => ?_⟩
    simp only [run, NodeEngine.restoreLatestSnapshot] at h
    split at h
    · split at h
      · cases h
      · cases h
        exact NodeEngine.Unasked.of_none rfl
      · split_ifs at h <;> cases h <;> exact NodeEngine.Unasked.of_none rfl
    · cases h
      exact NodeEngine.Unasked.of_none rfl
  | tick nowMs =>
    refine ⟨fun _ _ hask => (by cases hask), fun _ => NodeEngine.step_unasked (fun e₁ acts₁ hhandle => ?_) h⟩
    cases hhandle
    exact NodeEngine.Unasked.nil
  | peerConnected peer =>
    refine ⟨fun _ _ hask => (by cases hask), fun _ => NodeEngine.step_unasked (fun e₁ acts₁ hhandle => ?_) h⟩
    obtain ⟨latest, -, hhandle⟩ := bind_ok hhandle
    cases hhandle
    exact (NodeEngine.Unasked.of_none rfl).append (NodeEngine.Unasked.requestBlocks _ _ _)
  | peerDisconnected peer =>
    refine ⟨fun _ _ hask => (by cases hask), fun _ => NodeEngine.step_unasked (fun e₁ acts₁ hhandle => ?_) h⟩
    cases hhandle
    exact NodeEngine.Unasked.of_none rfl
  | storageLoaded blockHash stateBytes =>
    refine ⟨fun _ _ hask => (by cases hask), fun _ => NodeEngine.step_unasked (fun e₁ acts₁ hhandle => ?_) h⟩
    exact NodeEngine.handleStorageLoaded_unasked hhandle

/-! ## What the manager does with it -/

namespace NetworkManager

variable {m m' : NetworkManager} {calls : List SwarmCall}

/-- an unasked command leaves the response channels alone -/
theorem handleCommand_unasked {c : NetworkCommand} (hc : c.Unasked) (h : m.handleCommand c = .ok (m', calls)) :
    (∀ n, m'.queue n = m.queue n) ∧ ∀ channel response, .syncResponse channel response ∉ calls := by
  rcases hc with ⟨peer, fromHeight, toHeight, rfl⟩ | ⟨peer, request, rfl⟩
  · have heq := Except.ok.inj h
    have hspec := sendSyncRequest_queue m peer ⟨fromHeight, toHeight⟩
    rwa [heq] at hspec
  · simp only [handleCommand, sendFrame] at h
    split at h
    · cases h
      exact ⟨fun _ => rfl, fun _ _ hmem => nomatch hmem⟩
    · split at h
      · cases h
      · cases h
        refine ⟨fun _ => rfl, fun channel response hmem => ?_⟩
        cases List.mem_singleton.1 hmem
      · rename_i other hother
        cases fromBytes_tag hother
      · rename_i other hother
        cases fromBytes_tag hother
      · rename_i other hother
        cases fromBytes_tag hother

/-- the engine's response is dropped, if the peer is not known or no channel waits, or goes out on the first channel -/
theorem handleCommand_response {peer : PeerId} {r : SyncResponse}
    (h : m.handleCommand (.sendFrame peer (NetworkMessage.syncResponse r).toBytes) = .ok (m', calls)) :
    (m.peerByNode.get? peer = none ∨ m.queue peer = []) ∧ m' = m ∧ calls = [] ∨
    ∃ channel rest response, m.queue peer = channel :: rest ∧
      NetworkMessage.fromBytes (NetworkMessage.syncResponse r).toBytes = .ok (.syncResponse response) ∧
      calls = [.syncResponse channel response] ∧ ∀ n, m'.queue n = if peer = n then rest else m.queue n := by
  simp only [handleCommand, sendFrame] at h
  split at h
  · rename_i hunknown
    cases h
    exact .inl ⟨.inl hunknown, rfl, rfl⟩
  · split at h
    · cases h
    · rename_i other hother
      cases fromBytes_tag hother
    · rename_i other hother
      cases fromBytes_tag hother
    · rename_i response hresponse
      have heq := Except.ok.inj h
      rcases sendSyncResponse_queue m peer response with ⟨hnil, hdropped⟩ | ⟨channel, rest, hcons, hcalls, hqueue⟩
      · rw [hdropped] at heq
        cases heq
        exact .inl ⟨.inr hnil, rfl, rfl⟩
      · rw [heq] at hcalls hqueue
        exact .inr ⟨channel, rest, response, hcons, hresponse, hcalls, hqueue⟩
    · rename_i other hother
      cases fromBytes_tag hother

end NetworkManager

end Network

end RustProof
