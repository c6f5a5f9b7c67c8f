/-
Catching up with a peer.

The exchange between two engines that `PeerConnected` starts: the runtime clamps every request of the client to the
peer's limit (`rp-runtime/src/network/manager.rs`), the server answers it, the client imports the blocks and goes on from
`next_height`. One round moves the client along the server's canonical chain by the blocks of one window
(`CaughtUp.round`); the client's own window does not matter, since every request begins where the answer before ended.

Result: `catch_up_complete`.
-/
import RustProof.Sync.Serve

namespace RustProof

section CatchUp

variable [Crypto]

/-! ## The exchange -/

/-- `NetworkManager::clamp_sync_request` -/
def clampSyncRequest (peerMaxBlocksPerChunk : PeerId → Option UInt16) (peer : PeerId) (request : SyncRequest) :
    SyncRequest :=
  request.clamp (peerMaxBlocksPerChunk peer)

omit [Crypto] in
/-- a clamped request begins where the request does and is not empty if the request is not -/
theorem clampSyncRequest_spec (limits : PeerId → Option UInt16) (peer : PeerId) {request : SyncRequest}
    (h : request.fromHeight ≤ request.toHeight) :
    (clampSyncRequest limits peer request).fromHeight = request.fromHeight ∧
      request.fromHeight ≤ (clampSyncRequest limits peer request).toHeight := by
  unfold clampSyncRequest SyncRequest.clamp
  split
  · exact ⟨rfl, h⟩
  · split_ifs
    · exact ⟨rfl, h⟩
    · refine ⟨rfl, le_min h ?_⟩
      rw [UInt64.le_iff_toNat_le, toNat_saturatingAdd]
      have := request.fromHeight.toNat_lt
      omega

/-- the request an action makes to a peer, as `send_sync_request` takes it -/
def NodeAction.requestTo (peer : PeerId) : NodeAction → Option SyncRequest
  | .requestBlocks p fromHeight toHeight => if p = peer then some ⟨fromHeight, toHeight⟩ else none
  | _ => none

theorem NodeAction.requestTo_self (peer : PeerId) (fromHeight toHeight : UInt64) :
    (NodeAction.requestBlocks peer fromHeight toHeight).requestTo peer = some ⟨fromHeight, toHeight⟩ := if_pos rfl

def NodeAction.frameTo (peer : PeerId) : NodeAction → Option Frame
  | .sendFrame p frame => if p = peer then some frame else none
  | _ => none

def NodeAction.persisted : NodeAction → Option Block
  | .persistBlock b => some b
  | _ => none

/-- two engines, the requests of the client not yet answered, what went over the wire, and the client's actions -/
structure Exchange where
  client : NodeEngine
  server : NodeEngine
  inFlight : List SyncRequest
  wire : List (SyncRequest × Frame)
  log : List NodeAction

namespace Exchange

variable (ck : OverflowChecks) (limits : PeerId → Option UInt16) (clientPeer serverPeer : PeerId)

/-- `PeerConnected` at the client -/
def connect (client server : NodeEngine) : Except Fault Exchange := do
  let (client, actions) ← client.step ck (.peerConnected serverPeer)
  pure ⟨client, server, actions.filterMap (NodeAction.requestTo serverPeer), [], actions⟩

/-- the first open request: clamped, handled by the server, its answer handled by the client -/
def round (x : Exchange) : Except Fault Exchange :=
  match x.inFlight with
  | [] => .ok x
  | request :: rest => do
    let request := clampSyncRequest limits serverPeer request
    let (server, answer) ← x.server.step ck (.frameReceived clientPeer (NetworkMessage.syncRequest request).toBytes)
    match answer.filterMap (NodeAction.frameTo clientPeer) with
    | [] => pure { x with server := server, inFlight := rest }
    | frame :: _ =>
      let (client, actions) ← x.client.step ck (.frameReceived serverPeer frame)
      pure ⟨client, server, rest ++ actions.filterMap (NodeAction.requestTo serverPeer), x.wire ++ [(request, frame)],
        x.log ++ actions⟩

def run : ℕ → Exchange → Except Fault Exchange
  | 0, x => .ok x
  | n + 1, x => do
    let x ← round ck limits clientPeer serverPeer x
    run n x

end Exchange

/-- the blocks of a `SyncResponse` -/
def responseBlocks (frame : Frame) : List Block :=
  match NetworkMessage.fromBytes frame with
  | .ok (.syncResponse response) => response.blocks
  | _ => []

/-- all blocks served, in order -/
def Exchange.served (x : Exchange) : List Block := x.wire.flatMap fun w => responseBlocks w.2

/-- all heights up to `top` requested on the wire, in order -/
def Exchange.requested (x : Exchange) (top : ℕ) : List ℕ :=
  x.wire.flatMap fun w =>
    List.range' w.1.fromHeight.toNat (min w.1.toHeight.toNat top + 1 - w.1.fromHeight.toNat)

/-! ## The client imports what it is served -/

section Import

variable {ck : OverflowChecks} {U : BlockUniverse} {root : Block} {s0 : State}

/-- an accepted child of the head becomes head; nothing waits for it -/
theorem ingestBlock_child {e : NodeEngine} {p b : Block} {s' : State} (hroot : root ∈ U.blocks)
    (T : TreeInv ck U root s0 e.blockchain) (hempty : e.pendingBlocks = .empty) (hp : p ∈ U.blocks)
    (hph : p.hash = e.blockchain.headHash) (hlink : b.previousHash = p.hash) (hb : b ∈ U.blocks)
    (hacc : Accepted ck p e.blockchain.state b s') (hpos : b.height ≠ 0) (peer : PeerId) :
    ∃ bc, e.ingestBlock ck peer b = .ok ({ e with blockchain := bc },
        [.persistBlock b, .persistSnapshot b.hash s'.toBytes, .reportEvent "Block added"]) ∧
      TreeInv ck U root s0 bc ∧ bc.headHash = b.hash ∧ bc.state = s' ∧
      ∀ h, (h = b.hash ∨ ∃ x, e.blockchain.blockAt h = some x) → ∃ x, bc.blockAt h = some x := by
  obtain ⟨head, hhead, -⟩ := T.head
  have hprev : e.blockchain.headHash = b.previousHash := by rw [hlink, hph]
  -- the stored head is a variant of `p`
  have hu := U.unsigned_eq hp (T.mem hroot hhead) (hph.trans (T.keys _ _ hhead).symm)
  have hheight := height_eq_of_unsigned_eq hu
  have hacc' := hacc.of_parent hheight (slot_eq_of_unsigned_eq hu)
  have hs : StateAt ck U root s0 b.previousHash e.blockchain.state := hprev ▸ T.state
  obtain ⟨bc, imported, hadd, rfl⟩ := Blockchain.addBlock_of_accepted (by rw [← hprev]; exact hhead) hhead hacc'
  have hadded := Blockchain.addBlock_ok hadd
  have hbecame : imported.becameHead = true := by
    obtain ⟨latest, hlatest, hchoice⟩ := hadded.choice
    rw [Blockchain.blockAfter_of_some b hhead] at hlatest
    cases hlatest
    rw [hchoice, shouldReplaceHead_iff]
    refine Prod.Lex.toLex_lt_toLex.2 (.inl ?_)
    have hone : (1 : UInt64).toNat = 1 := rfl
    have hnat : b.height.toNat = (head.height.toNat + 1) % 2 ^ 64 := by
      rw [hacc'.height_eq, UInt64.toNat_add, hone]
    have hne : b.height.toNat ≠ 0 := fun h0 => hpos (UInt64.toNat_inj.1 h0)
    have hlt := head.height.toNat_lt
    change head.height < b.height
    rw [UInt64.lt_iff_toNat_lt]
    omega
  refine ⟨bc, ?_, T.added hroot hb hs hadded, ?_, ?_, fun h hh => ?_⟩
  · unfold NodeEngine.ingestBlock
    rw [if_pos hprev, hadd]
    simp only [NodeEngine.importIfHead, hbecame, if_true, NodeEngine.importParkedBlocks, NodeEngine.importParked, hempty,
      BTreeMap.get?_empty, bind, Except.bind, pure, Except.pure]
  · rw [hadded.head, hbecame, if_pos rfl]
  · rw [hadded.state, hbecame, if_pos rfl]
  · rw [hadded.blocks]
    rcases hh with rfl | ⟨x, hx⟩
    · exact ⟨_, by rw [Blockchain.blockAfter, if_pos rfl]⟩
    · exact ⟨x, Blockchain.blockAfter_of_some b hx⟩

/-- a replayed chain behind the head is imported whole -/
theorem ingestBlocks_chain {bs : List Block} {e : NodeEngine} {p : Block} {s' : State} (hroot : root ∈ U.blocks)
    (T : TreeInv ck U root s0 e.blockchain) (hempty : e.pendingBlocks = .empty) (hp : p ∈ U.blocks)
    (hph : p.hash = e.blockchain.headHash) (hlink : Linked Block.previousHash Block.hash p.hash bs)
    (hmem : ∀ b ∈ bs, b ∈ U.blocks) (hreplay : replay ck p e.blockchain.state bs = .ok (.ok s'))
    (hpos : ∀ b ∈ bs, b.height ≠ 0) (peer : PeerId) :
    ∃ bc acts, NodeEngine.ingestBlocks ck peer bs e = .ok ({ e with blockchain := bc }, acts) ∧
      TreeInv ck U root s0 bc ∧ bc.headHash = tip Block.hash p.hash bs ∧ bc.state = s' ∧
      acts.filterMap NodeAction.persisted = bs ∧ (∀ q, acts.filterMap (NodeAction.requestTo q) = []) ∧
      ∀ h, ((∃ b ∈ bs, b.hash = h) ∨ ∃ x, e.blockchain.blockAt h = some x) → ∃ x, bc.blockAt h = some x := by
  induction bs generalizing e p with
  | nil =>
    cases hreplay
    exact ⟨e.blockchain, [], rfl, T, hph.symm, rfl, rfl, fun _ => rfl, fun h hh => hh.resolve_left (by simp)⟩
  | cons b bs ih =>
    obtain ⟨s1, hacc, hrest⟩ := replay_cons_ok_iff.1 hreplay
    have hb := hmem b List.mem_cons_self
    obtain ⟨bc, hingest, T', hhead, hstate, hkeep⟩ := ingestBlock_child hroot T hempty hp hph hlink.1 hb hacc
      (hpos b List.mem_cons_self) peer
    obtain ⟨bc', acts, hall, T'', hhead', hstate', hpers, hreq, hkeep'⟩ := ih (e := { e with blockchain := bc }) T' hempty hb
      hhead.symm hlink.2 (fun x hx => hmem x (List.mem_cons_of_mem _ hx)) (by rw [← hstate] at hrest; exact hrest)
      (fun x hx => hpos x (List.mem_cons_of_mem _ hx))
    refine ⟨bc', [.persistBlock b, .persistSnapshot b.hash s1.toBytes, .reportEvent "Block added"] ++ acts, ?_, T'', hhead',
      hstate', ?_, ?_, fun h hh => hkeep' h ?_⟩
    · rw [NodeEngine.ingestBlocks, hingest]
      simp only [bind, Except.bind, hall, pure, Except.pure]
    · rw [List.filterMap_append, hpers]
      rfl
    · intro q
      rw [List.filterMap_append, hreq q]
      rfl
    · rcases hh with ⟨x, hx, rfl⟩ | hold
      · rcases List.mem_cons.1 hx with rfl | hx
        · exact .inr (hkeep _ (.inl rfl))
        · exact .inl ⟨x, hx, rfl⟩
      · exact .inr (hkeep h (.inr hold))

end Import

/-! ## Steps of the two ends -/

section Ends

variable {ck : OverflowChecks}

/-- a wake action, if there is one, is the only thing `step` adds -/
theorem step_of_handle_ok {e e' : NodeEngine} {input : NodeInput} {acts : List NodeAction}
    (h : e.handle ck input = .ok (e', acts)) :
    ∃ wake, e.step ck input = .ok ({ e' with scheduledWakeAtMs := e'.nextWakeAtMs }, acts ++ wake) ∧
      (wake = [] ∨ wake = [.cancelWake] ∨ ∃ t, wake = [.scheduleWake t]) := by
  unfold NodeEngine.step NodeEngine.syncWakeAction
  rw [h]
  simp only [bind, Except.bind, pure, Except.pure]
  split_ifs with hwake
  · exact ⟨[], by rw [hwake], .inl rfl⟩
  · cases e'.nextWakeAtMs with
    | none => exact ⟨_, rfl, .inr (.inl rfl)⟩
    | some t => exact ⟨_, rfl, .inr (.inr ⟨t, rfl⟩)⟩

/-- a wake action is none of the others -/
theorem filterMap_wake {β : Type} {f : NodeAction → Option β} (hcancel : f .cancelWake = none)
    (hschedule : ∀ t, f (.scheduleWake t) = none) {wake : List NodeAction}
    (h : wake = [] ∨ wake = [.cancelWake] ∨ ∃ t, wake = [.scheduleWake t]) : wake.filterMap f = [] := by
  rcases h with rfl | rfl | ⟨t, rfl⟩
  · rfl
  · simp [hcancel]
  · simp [hschedule]

/-- the server sends its answer and nothing else -/
theorem server_step (ck : OverflowChecks) {e : NodeEngine} {request : SyncRequest} {response : SyncResponse}
    (h : e.syncResponse request = .ok response) (clientPeer : PeerId) :
    ∃ e' acts, e.step ck (.frameReceived clientPeer (NetworkMessage.syncRequest request).toBytes) = .ok (e', acts) ∧
      e'.blockchain = e.blockchain ∧
      acts.filterMap (NodeAction.frameTo clientPeer) = [(NetworkMessage.syncResponse response).toBytes] := by
  have hbytes : NetworkMessage.fromBytes (NetworkMessage.syncRequest request).toBytes = .ok (.syncRequest request) := by
    have hround := fromBytes_toBytes_message (m := .syncRequest request) trivial []
    rwa [List.append_nil] at hround
  have hhandle : e.handle ck (.frameReceived clientPeer (NetworkMessage.syncRequest request).toBytes) =
      .ok (e, [.sendFrame clientPeer (NetworkMessage.syncResponse response).toBytes]) := by
    simp only [NodeEngine.handle, hbytes, NodeEngine.handleMessage, h, bind, Except.bind, pure, Except.pure]
  obtain ⟨wake, hstep, hwake⟩ := step_of_handle_ok hhandle
  refine ⟨_, _, hstep, rfl, ?_⟩
  rw [List.filterMap_append, filterMap_wake rfl (fun _ => rfl) hwake, List.append_nil]
  simp [NodeAction.frameTo]

/-- where a request goes on -/
def nextToHeight (request : SyncRequest) (nextHeight : UInt64) : UInt64 :=
  if nextHeight ≤ request.toHeight then request.toHeight
  else saturatingAdd nextHeight (saturatingSub request.toHeight request.fromHeight)

omit [Crypto] in
theorem le_nextToHeight (request : SyncRequest) (nextHeight : UInt64) :
    nextHeight ≤ nextToHeight request nextHeight := by
  unfold nextToHeight
  split_ifs with h
  · exact h
  · rw [UInt64.le_iff_toNat_le, toNat_saturatingAdd]
    have := nextHeight.toNat_lt
    omega

/-- the client with one open request handles an answer: the blocks, then the request for the rest -/
theorem client_step {e e' : NodeEngine} {acts : List NodeAction} {serverPeer : PeerId} {request : SyncRequest}
    {deadline : UInt64} {response : SyncResponse} (hsized : (NetworkMessage.syncResponse response).Sized)
    (hpending : e.pendingRequests = [⟨serverPeer, request.fromHeight, request.toHeight, deadline⟩])
    (hingest : NodeEngine.ingestBlocks ck serverPeer response.blocks { e with pendingRequests := [] } = .ok (e', acts))
    (hnone : e'.pendingRequests = []) (hnext : ∀ n, response.nextHeight = some n → n ≠ 0) :
    ∃ e'' acts', e.step ck (.frameReceived serverPeer (NetworkMessage.syncResponse response).toBytes) = .ok (e'', acts') ∧
      e''.blockchain = e'.blockchain ∧ e''.pendingBlocks = e'.pendingBlocks ∧
      acts'.filterMap NodeAction.persisted = acts.filterMap NodeAction.persisted ∧
      (response.nextHeight = none → e''.pendingRequests = [] ∧
        acts'.filterMap (NodeAction.requestTo serverPeer) = acts.filterMap (NodeAction.requestTo serverPeer)) ∧
      ∀ n, response.nextHeight = some n →
        (∃ d, e''.pendingRequests = [⟨serverPeer, n, nextToHeight request n, d⟩]) ∧
          acts'.filterMap (NodeAction.requestTo serverPeer) =
            acts.filterMap (NodeAction.requestTo serverPeer) ++ [⟨n, nextToHeight request n⟩] := by
  have hbytes : NetworkMessage.fromBytes (NetworkMessage.syncResponse response).toBytes = .ok (.syncResponse response) := by
    have hround := fromBytes_toBytes_message hsized []
    rwa [List.append_nil] at hround
  have hother : e.pendingRequests.filter (fun request => decide (request.peer ≠ serverPeer)) = [] := by
    rw [hpending]
    simp
  have hown : e.pendingRequests.filter (fun request => decide (request.peer = serverPeer)) =
      [⟨serverPeer, request.fromHeight, request.toHeight, deadline⟩] := by
    rw [hpending]
    simp
  cases hn : response.nextHeight with
  | none =>
    have hhandle : e.handle ck (.frameReceived serverPeer (NetworkMessage.syncResponse response).toBytes) =
        .ok (e', if acts.isEmpty then [.frameReceived serverPeer] else acts) := by
      simp only [NodeEngine.handle, hbytes, NodeEngine.handleMessage, NodeEngine.handleSyncResponse, hother, hingest, hn,
        bind, Except.bind, pure, Except.pure]
    obtain ⟨wake, hstep, hwake⟩ := step_of_handle_ok hhandle
    have hack : ∀ {β : Type} (f : NodeAction → Option β), f (.frameReceived serverPeer) = none →
        f .cancelWake = none → (∀ t, f (.scheduleWake t) = none) →
        ((if acts.isEmpty then [.frameReceived serverPeer] else acts) ++ wake).filterMap f = acts.filterMap f := by
      intro β f h1 h2 h3
      rw [List.filterMap_append, filterMap_wake h2 h3 hwake, List.append_nil]
      cases acts with
      | nil => simp [h1]
      | cons a acts => rfl
    exact ⟨_, _, hstep, rfl, rfl, hack _ rfl rfl fun _ => rfl, fun _ => ⟨hnone, hack _ rfl rfl fun _ => rfl⟩,
      fun n h => by cases h⟩
  | some n =>
    have hne := hnext n hn
    have hhandle : e.handle ck (.frameReceived serverPeer (NetworkMessage.syncResponse response).toBytes) =
        .ok ({ e' with pendingRequests := [⟨serverPeer, n, nextToHeight request n,
            saturatingAdd e'.currentTimeMs requestTimeoutMs⟩] },
          acts ++ [.requestBlocks serverPeer n (nextToHeight request n)]) := by
      simp only [NodeEngine.handle, hbytes, NodeEngine.handleMessage, NodeEngine.handleSyncResponse, hother, hown, hingest,
        hn, bind, Except.bind, pure, Except.pure, NodeEngine.continueRequests, NodeEngine.continueRequest, if_neg hne,
        NodeEngine.queueBlockRequest, hnone, List.nil_append, List.append_nil]
      simp [nextToHeight]
    obtain ⟨wake, hstep, hwake⟩ := step_of_handle_ok hhandle
    refine ⟨_, _, hstep, rfl, rfl, ?_, (fun h => by cases h), fun m hm => ?_⟩
    · rw [List.filterMap_append, filterMap_wake rfl (fun _ => rfl) hwake, List.append_nil, List.filterMap_append]
      simp [NodeAction.persisted]
    · cases hm
      refine ⟨⟨_, rfl⟩, ?_⟩
      rw [List.filterMap_append, filterMap_wake rfl (fun _ => rfl) hwake, List.append_nil, List.filterMap_append]
      simp [NodeAction.requestTo]

end Ends

/-! ## One round -/

/-- the server's answer to a request that begins at block `k` of `rest`, the blocks behind height `h` -/
def window (h : ℕ) (rest : List Block) (k : ℕ) (request : SyncRequest) : SyncResponse :=
  let served := (rest.drop k).take (request.toHeight.toNat + 1 - request.fromHeight.toNat)
  ⟨served, decide (k + served.length < rest.length),
    if k + served.length < rest.length then some (UInt64.ofNat (h + 1 + k + served.length)) else none⟩

/-- `rest` leads from block `p` with state `s` to the head of the server, which answers for all of it -/
structure Ahead (ck : OverflowChecks) (U : BlockUniverse) (bc : Blockchain) (p : Block) (s : State) (rest : List Block) :
    Prop where
  mem : ∀ b ∈ p :: rest, b ∈ U.blocks
  linked : Linked Block.previousHash Block.hash p.hash rest
  replayed : replay ck p s rest = .ok (.ok bc.state)
  last : tip Block.hash p.hash rest = bc.headHash
  heights : Consecutive Block.heightNat (p.heightNat + 1) rest
  bound : p.heightNat + rest.length < 2 ^ 64 - 1
  answers : ∀ (e : NodeEngine) (request : SyncRequest) (k : ℕ), e.blockchain = bc → k ≤ rest.length →
    request.fromHeight.toNat = p.heightNat + 1 + k → request.fromHeight ≤ request.toHeight →
    e.syncResponse request = .ok (window p.heightNat rest k request)

/-- the client, which stood at block `p`, has the first `k` blocks of `rest` -/
structure CaughtUp (ck : OverflowChecks) (U : BlockUniverse) (root : Block) (s0 : State) (bc : Blockchain) (p : Block)
    (s : State) (rest : List Block) (k : ℕ) (x : Exchange) : Prop where
  bound : k ≤ rest.length
  server : x.server.blockchain = bc
  tree : TreeInv ck U root s0 x.client.blockchain
  parked : x.client.pendingBlocks = .empty
  head : x.client.blockchain.headHash = tip Block.hash p.hash (rest.take k)
  state : replay ck p s (rest.take k) = .ok (.ok x.client.blockchain.state)
  served : x.served = rest.take k
  requested : x.requested (p.heightNat + rest.length) = List.range' (p.heightNat + 1) k
  persisted : x.log.filterMap NodeAction.persisted = rest.take k
  stored : ∀ b ∈ rest.take k, ∃ y, x.client.blockchain.blockAt b.hash = some y

/-- one request is open, for what follows height `h` -/
def Asking (serverPeer : PeerId) (h : ℕ) (x : Exchange) : Prop :=
  ∃ request deadline, x.inFlight = [request] ∧ request.fromHeight.toNat = h + 1 ∧
    request.fromHeight ≤ request.toHeight ∧
    x.client.pendingRequests = [⟨serverPeer, request.fromHeight, request.toHeight, deadline⟩]

/-- nothing is open -/
def Done (x : Exchange) : Prop := x.inFlight = [] ∧ x.client.pendingRequests = []

section Round

variable {ck : OverflowChecks} {U : BlockUniverse} {root : Block} {s0 : State} {bc : Blockchain} {p : Block} {s : State}
  {rest : List Block}

/-- the client imports the next piece of the server's chain -/
theorem Ahead.import (A : Ahead ck U bc p s rest) (hroot : root ∈ U.blocks) {e : NodeEngine} {k w : ℕ}
    (T : TreeInv ck U root s0 e.blockchain) (hempty : e.pendingBlocks = .empty)
    (hhead : e.blockchain.headHash = tip Block.hash p.hash (rest.take k))
    (hstate : replay ck p s (rest.take k) = .ok (.ok e.blockchain.state)) (peer : PeerId) :
    ∃ bc' acts, NodeEngine.ingestBlocks ck peer ((rest.drop k).take w) e = .ok ({ e with blockchain := bc' }, acts) ∧
      TreeInv ck U root s0 bc' ∧
      bc'.headHash = tip Block.hash p.hash (rest.take (k + ((rest.drop k).take w).length)) ∧
      replay ck p s (rest.take (k + ((rest.drop k).take w).length)) = .ok (.ok bc'.state) ∧
      acts.filterMap NodeAction.persisted = (rest.drop k).take w ∧
      (∀ q, acts.filterMap (NodeAction.requestTo q) = []) ∧
      ∀ h, ((∃ b ∈ (rest.drop k).take w, b.hash = h) ∨ ∃ x, e.blockchain.blockAt h = some x) →
        ∃ x, bc'.blockAt h = some x := by
  have hsub : ∀ b ∈ (rest.drop k).take w, b ∈ rest := fun b hb => List.mem_of_mem_drop (List.mem_of_mem_take hb)
  have hpiece : rest.take (k + ((rest.drop k).take w).length) = rest.take k ++ (rest.drop k).take w := by
    rw [List.take_add, take_length_take]
  generalize hseg : (rest.drop k).take w = seg at *
  -- the part of the chain up to the end of the piece, replayed
  obtain ⟨s', hs', -⟩ := replay_append.1 (by
    rw [List.take_append_drop (k + seg.length) rest]
    exact A.replayed)
  rw [hpiece] at hs' ⊢
  obtain ⟨t, ht, hreplay⟩ := replay_append.1 hs'
  rw [hstate] at ht
  cases ht
  have hp : (rest.take k).getLastD p ∈ U.blocks := by
    rcases (rest.take k).eq_nil_or_concat with hnil | ⟨init, x, hx⟩
    · rw [hnil]
      exact A.mem p List.mem_cons_self
    · rw [hx, List.concat_eq_append, List.getLastD_concat]
      refine A.mem x (List.mem_cons_of_mem _ (List.mem_of_mem_take (i := k) ?_))
      rw [hx]
      simp
  have hlink : Linked Block.previousHash Block.hash ((rest.take k).getLastD p).hash seg := by
    have hall := A.linked
    rw [← List.take_append_drop (k + seg.length) rest, hpiece] at hall
    have hmid := (linked_append.1 (linked_append.1 hall).1).2
    rwa [tip_eq_getLastD] at hmid
  have hpos : ∀ b ∈ seg, b.height ≠ 0 := by
    intro b hb h0
    have hle := (A.heights.mem (hsub b hb)).1
    rw [Block.heightNat, Block.heightNat, h0] at hle
    exact absurd hle (Nat.not_succ_le_zero _)
  obtain ⟨bc', acts, h1, h2, h3, h4, h5, h6, h7⟩ := ingestBlocks_chain hroot T hempty hp
    (by rw [hhead, tip_eq_getLastD]) hlink (fun b hb => A.mem b (List.mem_cons_of_mem _ (hsub b hb))) hreplay hpos peer
  refine ⟨bc', acts, h1, h2, ?_, ?_, h5, h6, h7⟩
  · rw [h3, tip_append, tip_eq_getLastD p]
  · rw [h4]
    exact hs'

/-- what a round with one more piece of the chain leaves behind -/
theorem CaughtUp.extend {k m : ℕ} {x x' : Exchange} {clamped : SyncRequest} {seg : List Block} {frame : Frame}
    {acts : List NodeAction} (hx : CaughtUp ck U root s0 bc p s rest k x)
    (hfrom : clamped.fromHeight.toNat = p.heightNat + k + 1)
    (hseg : seg = (rest.drop k).take (clamped.toHeight.toNat + 1 - clamped.fromHeight.toNat)) (hm : m = k + seg.length)
    (hserver : x'.server.blockchain = bc) (htree : TreeInv ck U root s0 x'.client.blockchain)
    (hparked : x'.client.pendingBlocks = .empty)
    (hhead : x'.client.blockchain.headHash = tip Block.hash p.hash (rest.take m))
    (hstate : replay ck p s (rest.take m) = .ok (.ok x'.client.blockchain.state))
    (hwire : x'.wire = x.wire ++ [(clamped, frame)]) (hframe : responseBlocks frame = seg)
    (hlog : x'.log = x.log ++ acts) (hpersisted : acts.filterMap NodeAction.persisted = seg)
    (hkeep : ∀ h, ((∃ b ∈ seg, b.hash = h) ∨ ∃ y, x.client.blockchain.blockAt h = some y) →
      ∃ y, x'.client.blockchain.blockAt h = some y) : CaughtUp ck U root s0 bc p s rest m x' := by
  have hkle := hx.bound
  have hle : m ≤ rest.length := by
    rw [hm, hseg, List.length_take, List.length_drop]
    omega
  have hpiece : rest.take m = rest.take k ++ seg := by
    rw [hm, hseg, List.take_add, take_length_take]
  refine ⟨hle, hserver, htree, hparked, hhead, hstate, ?_, ?_, ?_, fun b hb => hkeep b.hash ?_⟩
  · have hold := hx.served
    simp only [Exchange.served] at hold
    simp only [Exchange.served, hwire, List.flatMap_append, List.flatMap_cons, List.flatMap_nil, List.append_nil, hframe]
    rw [hpiece, ← hold]
  · have hold := hx.requested
    simp only [Exchange.requested] at hold
    have hwidth : min clamped.toHeight.toNat (p.heightNat + rest.length) + 1 - clamped.fromHeight.toNat = seg.length := by
      rw [hfrom] at *
      rw [hseg, List.length_take, List.length_drop]
      omega
    simp only [Exchange.requested, hwire, List.flatMap_append, List.flatMap_cons, List.flatMap_nil, List.append_nil]
    rw [hold, hwidth, hfrom, show p.heightNat + k + 1 = p.heightNat + 1 + k by omega, List.range'_append_1, hm]
  · rw [hlog, List.filterMap_append, hpersisted, hx.persisted, hpiece]
  · rw [hpiece] at hb
    rcases List.mem_append.1 hb with hb | hb
    · exact .inr (hx.stored b hb)
    · exact .inl ⟨b, hb, rfl⟩

/-- one round brings the client forward by the blocks served, to the end of the chain or to the next request -/
theorem CaughtUp.round (A : Ahead ck U bc p s rest) (hroot : root ∈ U.blocks) {k : ℕ} {x : Exchange}
    {serverPeer : PeerId} (hx : CaughtUp ck U root s0 bc p s rest k x) (hask : Asking serverPeer (p.heightNat + k) x)
    (limits : PeerId → Option UInt16) (clientPeer : PeerId) :
    ∃ x' m, Exchange.round ck limits clientPeer serverPeer x = .ok x' ∧ CaughtUp ck U root s0 bc p s rest m x' ∧
      (k < m ∧ m < rest.length ∧ Asking serverPeer (p.heightNat + m) x' ∨ m = rest.length ∧ Done x') := by
  obtain ⟨request, deadline, hflight, hfrom, hto, hpending⟩ := hask
  have hbound := A.bound
  have hkle := hx.bound
  obtain ⟨hcfrom, hcto⟩ := clampSyncRequest_spec limits serverPeer hto
  generalize hclamped : clampSyncRequest limits serverPeer request = clamped at hcfrom hcto
  -- the server's answer
  have hanswer : x.server.syncResponse clamped = .ok (window p.heightNat rest k clamped) :=
    A.answers _ _ k hx.server hkle (by rw [hcfrom, hfrom]; omega) (by rw [hcfrom]; exact hcto)
  obtain ⟨seg, hseg⟩ : ∃ seg, seg = (rest.drop k).take (clamped.toHeight.toNat + 1 - clamped.fromHeight.toNat) := ⟨_, rfl⟩
  obtain ⟨m, hm⟩ : ∃ m, m = k + seg.length := ⟨_, rfl⟩
  have hle : m ≤ rest.length := by
    rw [hm, hseg, List.length_take, List.length_drop]
    omega
  obtain ⟨server, answer, hserver, hsame, hframe⟩ := server_step ck hanswer clientPeer
  -- the client takes it
  generalize hresponse : window p.heightNat rest k clamped = response at *
  have hblocks : response.blocks = seg := by
    rw [← hresponse, hseg]
    rfl
  have hnext : response.nextHeight = if m < rest.length then some (UInt64.ofNat (p.heightNat + 1 + m)) else none := by
    rw [← hresponse, hm, hseg, ← Nat.add_assoc]
    rfl
  have hnat : m < rest.length → (UInt64.ofNat (p.heightNat + 1 + m)).toNat = p.heightNat + 1 + m := by
    intro hmore
    rw [UInt64.toNat_ofNat', Nat.mod_eq_of_lt (by omega)]
  have hmem : ∀ b ∈ seg, b ∈ U.blocks := fun b hb => by
    rw [hseg] at hb
    exact A.mem b (List.mem_cons_of_mem _ (List.mem_of_mem_drop (List.mem_of_mem_take hb)))
  have hsized : (NetworkMessage.syncResponse response).Sized := by
    change response.blocks.length < 2 ^ 64 ∧ ∀ b ∈ response.blocks, b.Sized
    rw [hblocks]
    exact ⟨by omega, fun b hb => U.sized b (hmem b hb)⟩
  have hframeblocks : responseBlocks (NetworkMessage.syncResponse response).toBytes = seg := by
    have hround := fromBytes_toBytes_message hsized []
    rw [List.append_nil] at hround
    rw [responseBlocks, hround, ← hblocks]
  obtain ⟨bc', acts, hingest, htree, hhead', hstate', hpers, hreq, hkeep⟩ :=
    A.import hroot (e := { x.client with pendingRequests := [] })
      (w := clamped.toHeight.toNat + 1 - clamped.fromHeight.toNat) hx.tree hx.parked hx.head hx.state serverPeer
  rw [← hseg] at hingest hhead' hstate' hpers hkeep
  rw [← hm] at hhead' hstate'
  rw [← hblocks] at hingest
  obtain ⟨client, acts', hclient, hbc, hparked, hpers', hlast, hmore⟩ := client_step hsized hpending hingest rfl (by
    intro n hn h0
    rw [hnext] at hn
    split_ifs at hn with hmore
    have hz := hnat hmore
    rw [Option.some.inj hn, h0] at hz
    exact absurd hz.symm (by simp))
  have hround : Exchange.round ck limits clientPeer serverPeer x =
      .ok ⟨client, server, acts'.filterMap (NodeAction.requestTo serverPeer),
        x.wire ++ [(clamped, (NetworkMessage.syncResponse response).toBytes)], x.log ++ acts'⟩ := by
    simp only [Exchange.round, hflight, hclamped, hserver, hframe, hclient, bind, Except.bind, pure, Except.pure,
      List.nil_append]
  refine ⟨_, m, hround, ?_, ?_⟩
  · exact hx.extend (hcfrom ▸ hfrom) hseg hm (hsame.trans hx.server) (hbc ▸ htree) (hparked.trans hx.parked) (hbc ▸ hhead')
      (hbc ▸ hstate') rfl hframeblocks rfl (hpers'.trans hpers) (hbc ▸ hkeep)
  · by_cases hmore' : m < rest.length
    · rw [if_pos hmore'] at hnext
      obtain ⟨⟨d, hd⟩, hreq'⟩ := hmore _ hnext
      refine .inl ⟨?_, hmore', ⟨_, _⟩, d, ?_, (hnat hmore').trans (Nat.add_right_comm _ 1 m),
        le_nextToHeight request _, hd⟩
      · -- something was served
        have hne : 0 < seg.length := by
          have hw : clamped.fromHeight.toNat ≤ clamped.toHeight.toNat := by
            rw [hcfrom]
            exact UInt64.le_iff_toNat_le.1 hcto
          rw [hseg, List.length_take, List.length_drop]
          omega
        omega
      · rw [hreq', hreq]
        rfl
    · rw [if_neg hmore'] at hnext
      obtain ⟨hp, hr⟩ := hlast hnext
      exact .inr ⟨by omega, by rw [hr]; exact hreq _, hp⟩

/-- the exchange ends, at the head of the server -/
theorem CaughtUp.run (A : Ahead ck U bc p s rest) (hroot : root ∈ U.blocks) {k : ℕ} {x : Exchange}
    {serverPeer : PeerId} (hx : CaughtUp ck U root s0 bc p s rest k x) (hask : Asking serverPeer (p.heightNat + k) x)
    (limits : PeerId → Option UInt16) (clientPeer : PeerId) :
    ∃ rounds x', rounds ≤ max 1 (rest.length - k) ∧ Exchange.run ck limits clientPeer serverPeer rounds x = .ok x' ∧
      CaughtUp ck U root s0 bc p s rest rest.length x' ∧ Done x' := by
  -- every round but the last brings the client forward
  induction hn : rest.length - k using Nat.strong_induction_on generalizing k x with
  | _ n ih =>
    obtain ⟨x', m, hround, hx', hcase⟩ := hx.round A hroot hask limits clientPeer
    rcases hcase with ⟨hlt, hmore, hask'⟩ | ⟨rfl, hdone⟩
    · obtain ⟨rounds, y, hle, hrun, hy, hdone⟩ := ih (rest.length - m) (by omega) hx' hask' rfl
      refine ⟨rounds + 1, y, by omega, ?_, hy, hdone⟩
      rw [Exchange.run, hround]
      exact hrun
    · refine ⟨1, x', le_max_left _ _, ?_, hx', hdone⟩
      rw [Exchange.run, hround]
      rfl

end Round

/-! ## The whole exchange -/

/-- a chain of blocks, accepted one on the other from the root's state, with their heights in order -/
structure History (ck : OverflowChecks) where
  root : Block
  start : State
  blocks : List Block
  final : State
  sized : ∀ b ∈ root :: blocks, b.Sized
  linked : Linked Block.previousHash Block.hash root.hash blocks
  heights : Consecutive Block.heightNat (root.heightNat + 1) blocks
  replayed : replay ck root start blocks = .ok (.ok final)

/-- block `n` of the history, with the state there -/
def History.At {ck : OverflowChecks} (H : History ck) (n : ℕ) (b : Block) (s : State) : Prop :=
  (H.root :: H.blocks)[n]? = some b ∧ replay ck H.root H.start (H.blocks.take n) = .ok (.ok s)

section Whole

variable {ck : OverflowChecks} {H : History ck} {n : ℕ} {b : Block} {s : State}

theorem History.At.mem (h : H.At n b s) : b ∈ H.root :: H.blocks := List.mem_of_getElem? h.1

theorem History.At.le (h : H.At n b s) : n ≤ H.blocks.length := by
  obtain ⟨hlt, -⟩ := List.getElem?_eq_some_iff.1 h.1
  exact Nat.le_of_lt_succ hlt

/-- the blocks from block `n` on -/
theorem History.At.drop (h : H.At n b s) : b :: H.blocks.drop n = (H.root :: H.blocks).drop n := by
  obtain ⟨hlt, hb⟩ := List.getElem?_eq_some_iff.1 h.1
  rw [List.drop_eq_getElem_cons hlt, hb, List.drop_succ_cons]

theorem History.At.getLastD (h : H.At n b s) : (H.blocks.take n).getLastD H.root = b := by
  have hget := h.1
  generalize H.root = p at hget
  generalize H.blocks = l at hget
  clear h
  induction n generalizing p l with
  | zero => exact Option.some.inj hget
  | succ n ih =>
    cases l with
    | nil => cases hget
    | cons c l =>
      rw [List.take_succ_cons, List.getLastD_cons]
      exact ih c l hget

theorem History.At.height (h : H.At n b s) : b.heightNat = H.root.heightNat + n := by
  have hall : Consecutive Block.heightNat H.root.heightNat (H.root :: H.blocks) := consecutive_cons.2 ⟨rfl, H.heights⟩
  have hdrop := hall.drop (n := n) (h.le.trans (Nat.le_succ _))
  rw [← h.drop] at hdrop
  exact (consecutive_cons.1 hdrop).1

/-- the part of a history behind block `n` is a history itself -/
theorem History.At.tail (h : H.At n b s) :
    Linked Block.previousHash Block.hash b.hash (H.blocks.drop n) ∧
      tip Block.hash b.hash (H.blocks.drop n) = tip Block.hash H.root.hash H.blocks ∧
      Consecutive Block.heightNat (b.heightNat + 1) (H.blocks.drop n) ∧
      replay ck b s (H.blocks.drop n) = .ok (.ok H.final) := by
  have htip : tip Block.hash H.root.hash (H.blocks.take n) = b.hash := by
    rw [tip_eq_getLastD, h.getLastD]
  have hlink := H.linked
  have hreplay := H.replayed
  rw [← List.take_append_drop n H.blocks] at hlink hreplay
  obtain ⟨s', hs', hrest⟩ := replay_append.1 hreplay
  rw [h.2] at hs'
  cases hs'
  rw [h.getLastD] at hrest
  refine ⟨?_, ?_, ?_, hrest⟩
  · rw [← htip]
    exact (linked_append.1 hlink).2
  · rw [← htip, ← tip_append, List.take_append_drop]
  · rw [h.height, Nat.add_right_comm]
    exact H.heights.drop h.le

variable {U : BlockUniverse} {root : Block} {s0 : State} {bc : Blockchain}

/-- a server that holds the end of a history, from block `n` on, answers for all that follows block `i` -/
theorem Ahead.of_history {i : ℕ} {p : Block} {t : State} (hU : ∀ c ∈ H.root :: H.blocks, c ∈ U.blocks)
    (T : TreeInv ck U b s bc) (hb : H.At n b s) (hcan : Canonical ck b s bc (H.blocks.drop n)) {head : Block}
    (hhead : bc.blockAt bc.headHash = some head) (hlt : head.heightNat < 2 ^ 64 - 1) {a : UInt64}
    (he : bc.earliestContiguousHeight = .ok a) (hp : H.At i p t) (ha : a.toNat ≤ p.heightNat + 1) :
    Ahead ck U bc p t (H.blocks.drop i) ∧ head.heightNat = p.heightNat + (H.blocks.drop i).length := by
  have hroot := hU b hb.mem
  have hbheight := hb.height
  have hpheight := hp.height
  have hble := hb.le
  have hple := hp.le
  have hheight := hcan.head_height T hhead hlt
  rw [List.length_drop] at hheight
  have hni : n ≤ i + 1 := by
    obtain ⟨-, rfl⟩ := hcan.earliest hroot T hhead hlt he
    have : b.heightNat ≤ p.heightNat + 1 := ha
    omega
  have hrest : (b :: H.blocks.drop n).drop (i + 1 - n) = H.blocks.drop i := by
    rw [hb.drop, List.drop_drop, Nat.add_sub_cancel' hni, List.drop_succ_cons]
  obtain ⟨hlink, htip, hheights, hreplay⟩ := hp.tail
  obtain ⟨-, htipb, -, hreplayb⟩ := hb.tail
  have hfinal : bc.state = H.final := by
    have := hcan.replayed
    rw [hreplayb] at this
    exact (Except.ok.inj (Except.ok.inj this)).symm
  refine ⟨⟨fun c hc => ?_, hlink, by rw [hfinal]; exact hreplay, ?_, hheights, ?_, fun e request k hbc hk hfrom hto => ?_⟩,
    ?_⟩
  · rcases List.mem_cons.1 hc with rfl | hc
    · exact hU _ hp.mem
    · exact hU c (List.mem_cons_of_mem _ (List.mem_of_mem_drop hc))
  · rw [htip, ← htipb]
    exact hcan.path.linked.2
  · rw [List.length_drop]
    omega
  · subst hbc
    rw [List.length_drop] at hk
    have hserve := hcan.serve hroot T hhead hlt he (j := i + 1 - n + k) (by rw [hfrom]; omega)
      (by rw [List.length_drop]; omega) hto rfl
    rw [← List.drop_drop, hrest] at hserve
    refine hserve.trans ?_
    have hsum : ∀ m, i + 1 - n + k + m < (H.blocks.drop n).length + 1 ↔ k + m < (H.blocks.drop i).length := by
      intro m
      rw [List.length_drop, List.length_drop]
      omega
    simp only [window, hsum]
    congr 3
    congr 2
    omega
  · rw [List.length_drop]
    omega

/-- what `PeerConnected` does -/
theorem handle_peerConnected (ck : OverflowChecks) {c : NodeEngine} {head : Block}
    (hhead : c.blockchain.blockAt c.blockchain.headHash = some head) (hpending : c.pendingRequests = [])
    (serverPeer : PeerId) :
    c.handle ck (.peerConnected serverPeer) =
      .ok ({ c with
          peers := c.peers.insert serverPeer ⟨true, 0⟩
          pendingRequests := [⟨serverPeer, saturatingAdd head.height 1, saturatingAdd head.height 100,
            saturatingAdd c.currentTimeMs requestTimeoutMs⟩] },
        [.reportEvent "peer connected",
          .requestBlocks serverPeer (saturatingAdd head.height 1) (saturatingAdd head.height 100)]) := by
  simp only [NodeEngine.handle, NodeEngine.connectPeer, Blockchain.getLatestBlock_ok_iff.2 hhead,
    NodeEngine.queueBlockRequest, hpending, bind, Except.bind, pure, Except.pure, List.nil_append]

/-- `PeerConnected` asks for what follows the head -/
theorem connect_ok (ck : OverflowChecks) {c v : NodeEngine} {head : Block} (hhead : c.blockchain.blockAt c.blockchain.headHash = some head)
    (hlt : head.heightNat < 2 ^ 64 - 1) (hpending : c.pendingRequests = []) (serverPeer : PeerId) :
    ∃ x, Exchange.connect ck serverPeer c v = .ok x ∧ x.server = v ∧ x.client.blockchain = c.blockchain ∧
      x.client.pendingBlocks = c.pendingBlocks ∧ x.wire = [] ∧ x.log.filterMap NodeAction.persisted = [] ∧
      Asking serverPeer head.heightNat x := by
  obtain ⟨wake, hstep, hwake⟩ := step_of_handle_ok (handle_peerConnected ck hhead hpending serverPeer)
  have hone : (1 : UInt64).toNat = 1 := rfl
  have hundred : (100 : UInt64).toNat = 100 := rfl
  refine ⟨_, by rw [Exchange.connect, hstep]; rfl, rfl, rfl, rfl, rfl, ?_,
    ⟨saturatingAdd head.height 1, saturatingAdd head.height 100⟩, _, ?_, ?_, ?_, rfl⟩
  · rw [List.filterMap_append, filterMap_wake rfl (fun _ => rfl) hwake]
    rfl
  · rw [List.filterMap_append, filterMap_wake rfl (fun _ => rfl) hwake, List.filterMap_cons_none rfl,
      List.filterMap_cons_some (NodeAction.requestTo_self serverPeer _ _)]
    rfl
  · unfold Block.heightNat at hlt ⊢
    rw [toNat_saturatingAdd, hone]
    omega
  · rw [UInt64.le_iff_toNat_le, toNat_saturatingAdd, toNat_saturatingAdd, hone, hundred]
    omega

/-- the blocks two runs and a history are made of -/
def pairUniverse {c0 v0 : NodeEngine} {t0 : State} {croot : Block} (hc : Start ck c0 croot t0) (hv : Start ck v0 root s0)
    (cinputs vinputs : List NodeInput) (H : History ck)
    (hcoll : NoCollision (blocksSeen croot c0 cinputs ∪ blocksSeen root v0 vinputs ∪ {b | b ∈ H.root :: H.blocks})) :
    BlockUniverse where
  blocks := blocksSeen croot c0 cinputs ∪ blocksSeen root v0 vinputs ∪ {b | b ∈ H.root :: H.blocks}
  sized := by
    rintro b ((hb | hb) | hb)
    · exact (hc.universe cinputs (hcoll.mono (Set.subset_union_left.trans Set.subset_union_left))).sized b hb
    · exact (hv.universe vinputs (hcoll.mono (Set.subset_union_right.trans Set.subset_union_left))).sized b hb
    · exact H.sized b hb
  noCollision := hcoll

end Whole

/-- **Catch-up is complete.** A client at block `i` of a history, with nothing parked and no request open, connects to a
server that holds the history from a block not above `h + 1` up to its head, at height below 2⁶⁴ - 1. Whatever the peer's
limit, the exchange ends: no request is open, the heights from `h + 1` to the head were requested and served once each, in
order, every block served was imported, and the client has the head and the state of the server. -/
theorem catch_up_complete (ck : OverflowChecks) (H : History ck) (croot vroot : Block) (cs0 vs0 : State)
    (c0 c v0 v : NodeEngine) (clog vlog : List NodeAction) (cinputs vinputs : List NodeInput)
    -- the two engines, after any runs
    (hcstart : Start ck c0 croot cs0) (hcrun : Run ck croot cs0 c0 c clog cinputs)
    (hvstart : Start ck v0 vroot vs0) (hvrun : Run ck vroot vs0 v0 v vlog vinputs)
    (hcoll : NoCollision (blocksSeen croot c0 cinputs ∪ blocksSeen vroot v0 vinputs ∪ {b | b ∈ H.root :: H.blocks}))
    -- the server holds the history from block `n` on
    (n : ℕ) (hvroot : H.At n vroot vs0) (hcan : Canonical ck vroot vs0 v.blockchain (H.blocks.drop n))
    (vhead : Block) (hvhead : v.blockchain.blockAt v.blockchain.headHash = some vhead)
    (hlt : vhead.height.toNat < 2 ^ 64 - 1)
    -- the client stands at block `i`, with the state there
    (i : ℕ) (p : Block) (hp : H.At i p c.blockchain.state) (hhead : p.hash = c.blockchain.headHash)
    (hearliest : ∃ a, v.blockchain.earliestContiguousHeight = .ok a ∧ a.toNat ≤ p.height.toNat + 1)
    (hparked : c.pendingBlocks = .empty) (hpending : c.pendingRequests = [])
    (limits : PeerId → Option UInt16) (clientPeer serverPeer : PeerId) :
    ∃ rounds x, (do
        let x ← Exchange.connect ck serverPeer c v
        Exchange.run ck limits clientPeer serverPeer rounds x) = .ok x ∧
      rounds ≤ max 1 (vhead.height.toNat - p.height.toNat) ∧
      x.inFlight = [] ∧ x.client.pendingRequests = [] ∧
      x.requested vhead.height.toNat =
        List.range' (p.height.toNat + 1) (vhead.height.toNat - p.height.toNat) ∧
      x.served.map Block.heightNat = List.range' (p.height.toNat + 1) (vhead.height.toNat - p.height.toNat) ∧
      x.served = H.blocks.drop i ∧
      x.log.filterMap NodeAction.persisted = x.served ∧
      (∀ b ∈ x.served, ∃ y, x.client.blockchain.blockAt b.hash = some y) ∧
      x.client.blockchain.headHash = v.blockchain.headHash ∧ x.client.blockchain.state = v.blockchain.state := by
  obtain ⟨a, he, ha⟩ := hearliest
  obtain ⟨U, hU⟩ : ∃ U, U = pairUniverse hcstart hvstart cinputs vinputs H hcoll := ⟨_, rfl⟩
  have hcsub : blocksSeen croot c0 cinputs ⊆ U.blocks := by
    rw [hU]
    exact Set.subset_union_left.trans Set.subset_union_left
  have hvsub : blocksSeen vroot v0 vinputs ⊆ U.blocks := by
    rw [hU]
    exact Set.subset_union_right.trans Set.subset_union_left
  have hHsub : ∀ b ∈ H.root :: H.blocks, b ∈ U.blocks := fun b hb => by
    rw [hU]
    exact Or.inr hb
  have hroot : croot ∈ U.blocks := hcsub (Or.inl rfl)
  have Tc : TreeInv ck U croot cs0 c.blockchain :=
    (hcstart.run_inv hcrun (fun _ h => h) (hcoll.mono (Set.subset_union_left.trans Set.subset_union_left))).tree.mono hcsub
  have Tv : TreeInv ck U vroot vs0 v.blockchain :=
    (hvstart.run_inv hvrun (fun _ h => h) (hcoll.mono (Set.subset_union_right.trans Set.subset_union_left))).tree.mono hvsub
  obtain ⟨A, hH⟩ := Ahead.of_history hHsub Tv hvroot hcan hvhead hlt he hp ha
  have hlen : vhead.height.toNat - p.height.toNat = (H.blocks.drop i).length := by
    unfold Block.heightNat at hH
    omega
  -- the client's stored head is a variant of the history's block
  obtain ⟨chead, hchead, -⟩ := Tc.head
  have hheight : chead.heightNat = p.heightNat := by
    have hu := U.unsigned_eq (Tc.mem hroot hchead) (hHsub p hp.mem) ((Tc.keys _ _ hchead).trans hhead.symm)
    exact congrArg UInt64.toNat (height_eq_of_unsigned_eq hu)
  have hbound := A.bound
  obtain ⟨x₀, hconnect, hserver, hbc, hpb, hwire, hlog, hask⟩ := connect_ok ck (v := v) hchead (by omega) hpending
    serverPeer
  have hx₀ : CaughtUp ck U croot cs0 v.blockchain p c.blockchain.state (H.blocks.drop i) 0 x₀ := by
    refine ⟨Nat.zero_le _, by rw [hserver], by rw [hbc]; exact Tc, hpb.trans hparked, ?_, ?_, ?_, ?_, hlog, ?_⟩
    · rw [hbc]
      exact hhead.symm
    · rw [hbc]
      rfl
    · rw [Exchange.served, hwire]
      rfl
    · rw [Exchange.requested, hwire]
      rfl
    · exact fun b hb => nomatch hb
  obtain ⟨rounds, x, hrounds, hrun, hx, hflight, hnone⟩ :=
    hx₀.run A hroot (by rw [← hheight]; exact hask) limits clientPeer
  have hserved : x.served = H.blocks.drop i := hx.served.trans List.take_length
  refine ⟨rounds, x, by rw [hconnect]; exact hrun, by rw [hlen]; exact hrounds, hflight, hnone, ?_, ?_, hserved, ?_, ?_, ?_, ?_⟩
  · rw [hlen]
    have hrequested := hx.requested
    rwa [← hH] at hrequested
  · rw [hserved, hlen]
    exact A.heights
  · rw [hx.persisted, hx.served]
  · rw [hx.served]
    exact hx.stored
  · rw [hx.head, List.take_length, A.last]
  · have hstate := hx.state
    rw [List.take_length, A.replayed] at hstate
    exact (Except.ok.inj (Except.ok.inj hstate)).symm

end CatchUp

section Witness

open Sample

theorem mainChain_sized : ∀ b ∈ [genesis, m₁, m₂, m₃], b.Sized := by
  intro b hb
  simp only [List.mem_cons, List.not_mem_nil, or_false] at hb
  rcases hb with rfl | rfl | rfl | rfl
  · exact (Start.new : Start .debug (.new .new) genesis State.new).sized
  · exact emptyChild_sized _ _ _
  · exact emptyChild_sized _ _ _
  · exact emptyChild_sized _ _ _

theorem mainChain_linked : Linked Block.previousHash Block.hash genesis.hash [m₁, m₂, m₃] := by
  refine ⟨?_, ?_, ?_, trivial⟩ <;> decide +kernel

theorem mainChain_heights : Consecutive Block.heightNat (genesis.heightNat + 1) [m₁, m₂, m₃] := by
  unfold Consecutive
  decide +kernel

theorem mainChain_replayed : replay .debug genesis State.new [m₁, m₂, m₃] = .ok (.ok State.new) := by decide +kernel

/-- the genesis block and three blocks on it -/
def mainHistory : History .debug where
  root := genesis
  start := State.new
  blocks := [m₁, m₂, m₃]
  final := State.new
  sized := mainChain_sized
  linked := mainChain_linked
  heights := mainChain_heights
  replayed := mainChain_replayed

/-- a server restored at `m₁` -/
def restoredServer : NodeEngine := { NodeEngine.new .new with blockchain := .restoreHead m₁ State.new }

theorem restoredServer_start : Start .debug restoredServer m₁ State.new :=
  .restore .new (emptyChild_sized _ _ _) State.new_fits (by decide +kernel)

def servedInputs : List NodeInput := [announce peer m₂, announce peer m₃]

def server : NodeEngine × List NodeAction :=
  (runOn (fun _ _ => True) .debug m₁ State.new restoredServer [] servedInputs).get (by decide +kernel)

theorem server_run : Run .debug m₁ State.new restoredServer server.1 server.2 servedInputs :=
  (GuardedRun.of_runOn State.new_fits .start (Option.some_get _).symm).run

theorem server_canonical : Canonical .debug m₁ State.new server.1.blockchain [m₂, m₃] := by
  have hhead : server.1.blockchain.headHash = m₃.hash := by decide +kernel
  refine ⟨?_, by decide +kernel⟩
  rw [hhead]
  exact .child (l := [m₂]) (.child (l := []) .root (by decide +kernel) (eq_some_of_sameEmpty (by decide +kernel)))
    (by decide +kernel) (eq_some_of_sameEmpty (by decide +kernel))

/-- a new client and a server that begins at `m₁` and answers one block at a time -/
theorem catch_up_complete_from_restored : ∃ rounds x, (do
      let x ← Exchange.connect .debug peer (.new .new) server.1
      Exchange.run .debug (fun _ => some 1) peer peer rounds x) = .ok x ∧
    x.served = [m₁, m₂, m₃] ∧ x.client.blockchain.headHash = m₃.hash := by
  obtain ⟨rounds, x, hrun, -, -, -, -, -, hserved, -, -, hhead, -⟩ := catch_up_complete .debug mainHistory genesis m₁
    State.new State.new (.new .new) (.new .new) restoredServer server.1 [] server.2 [] servedInputs .new .start
    restoredServer_start server_run
    (by
      have hlist : ∀ a ∈ [genesis, m₁, m₂, m₃], ∀ b ∈ [genesis, m₁, m₂, m₃], a.hash = b.hash → a.toBytes = b.toBytes := by
        decide +kernel
      have hseen : genesis :: m₁ :: servedInputs.flatMap NodeInput.blocks = [genesis, m₁, m₂, m₃] := by
        rw [servedInputs, List.flatMap_cons, List.flatMap_cons, announce_blocks peer (b := m₂) (emptyChild_sized m₁ 2 3),
          announce_blocks peer (b := m₃) (emptyChild_sized m₂ 3 3)]
        rfl
      have hsub : ∀ b ∈ blocksSeen genesis (.new .new) [] ∪ blocksSeen m₁ restoredServer servedInputs ∪
          {b | b ∈ mainHistory.root :: mainHistory.blocks}, b ∈ [genesis, m₁, m₂, m₃] := by
        rintro b ((hb | hb) | hb)
        · exact List.mem_cons.2 (.inl (List.mem_singleton.1 (mem_of_blocksSeen rfl hb)))
        · rw [← hseen]
          exact List.mem_cons_of_mem _ (mem_of_blocksSeen rfl hb)
        · exact hb
      exact fun a ha b hb => hlist a (hsub a ha) b (hsub b hb))
    1 ⟨rfl, by decide +kernel⟩ server_canonical m₃
    (eq_some_of_sameEmpty (by decide +kernel)) (by decide +kernel) 0 genesis ⟨rfl, rfl⟩ rfl
    ⟨1, by decide +kernel, by decide +kernel⟩ rfl rfl (fun _ => some 1) peer peer
  exact ⟨rounds, x, hrun, hserved, hhead.trans (by decide +kernel)⟩

end Witness

end RustProof
