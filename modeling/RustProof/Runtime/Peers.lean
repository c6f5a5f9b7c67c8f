/-
The peers of the host's network manager (`register_verified_peer`, `unregister_transport_peer` of
`rp-runtime/src/network/manager.rs`).

Two maps say which node is behind which transport peer. A registration writes both and then removes what the new link
displaces, which may be a link of the node to another transport, a link of the transport to another node, or both. Over the
two maps stand the links between nodes and transports as one partial equivalence (`Links.relink`, `Links.unlink`): the maps
hold it after every call (`HoldsLinks.call`), and it can be read off the calls alone (`registered_eq_some_iff`).

Results:
- `peer_maps_inverse`: the two maps are inverse to each other, and frames are sent and attributed along them. A sync
  response is not: it goes by its channel or by the id of its request, of which these calls make none (see `Replies`);
- `engine_view_matches_registry`: the engine was told of exactly the registered nodes, in runs in which no transport proves
  another node than before. A registration emits `PeerConnected` for the new node only, so a node that loses its transport
  to another node stays connected for the engine (`ghost_peer`).
-/
import RustProof.Lib.Links
import RustProof.Lib.Machine
import RustProof.Runtime.Network

namespace RustProof

section Peers

variable [Crypto]

/-! ## Calls -/

inductive RegistryCall where
  | register (transportPeer : TransportPeer) (verified : VerifiedPeer)
  | unregister (transportPeer : TransportPeer)

def NetworkManager.call (m : NetworkManager) : RegistryCall → NetworkManager × List RuntimeEvent
  | .register transportPeer verified => m.registerVerifiedPeer transportPeer verified
  | .unregister transportPeer => m.unregisterTransportPeer transportPeer

structure Registry where
  manager : NetworkManager
  /-- what the engine was told -/
  events : List RuntimeEvent
  /-- newest first -/
  calls : List RegistryCall

def Registry.machine : Machine Registry RegistryCall where
  init σ := σ = ⟨.new, [], []⟩
  exec σ call := some ⟨(σ.manager.call call).1, σ.events ++ (σ.manager.call call).2, call :: σ.calls⟩

/-! ## The links behind the maps -/

def RegistryCall.update (P : PeerId ≃. TransportPeer) : RegistryCall → PeerId ≃. TransportPeer
  | .register transportPeer verified => Links.relink P verified.nodePeerId transportPeer
  | .unregister transportPeer => Links.unlink P transportPeer

/-- the links that some calls leave, newest first -/
def registered : List RegistryCall → PeerId ≃. TransportPeer
  | [] => ⊥
  | call :: older => call.update (registered older)

/-- the node of the last hello of a transport that was not closed since -/
def proved (transportPeer : TransportPeer) : List RegistryCall → Option PeerId
  | [] => none
  | .register t verified :: older => if t = transportPeer then some verified.nodePeerId else proved transportPeer older
  | .unregister t :: older => if t = transportPeer then none else proved transportPeer older

/-- the transport of the last hello for a node -/
def prover (nodePeer : PeerId) : List RegistryCall → Option TransportPeer
  | [] => none
  | .register t verified :: older => if verified.nodePeerId = nodePeer then some t else prover nodePeer older
  | .unregister _ :: older => prover nodePeer older

omit [Crypto] in
/-- a node and a transport are linked if each was the other's last -/
theorem registered_eq_some_iff (calls : List RegistryCall) (n : PeerId) (t : TransportPeer) :
    registered calls n = some t ↔ proved t calls = some n ∧ prover n calls = some t := by
  induction calls with
  | nil =>
    constructor
    · exact fun h => nomatch h
    · exact fun h => nomatch h.1
  | cons call older ih =>
    cases call with
    | register t₀ verified =>
      rw [registered, RegistryCall.update, Links.relink_apply, proved, prover]
      by_cases hn : n = verified.nodePeerId
      · rw [if_pos hn, if_pos hn.symm, Option.some.injEq]
        constructor
        · intro ht
          rw [if_pos ht, hn]
          exact ⟨rfl, ht⟩
        · exact fun h => h.2
      · rw [if_neg hn, if_neg (Ne.symm hn)]
        by_cases ht : t₀ = t
        · -- the transport was linked to `n` at most before
          subst ht
          rw [if_pos rfl]
          constructor
          · intro h
            split_ifs at h with hlinked
            exact absurd h hlinked
          · exact fun h => absurd (Option.some.inj h.1).symm hn
        · rw [if_neg ht, ← ih]
          constructor
          · intro h
            split_ifs at h
            exact h
          · intro h
            rw [if_neg fun h₀ => ht (Option.some.inj (h₀.symm.trans h))]
            exact h
    | unregister t₀ =>
      rw [registered, RegistryCall.update, Links.unlink_apply, proved, prover]
      by_cases ht : t₀ = t
      · subst ht
        rw [if_pos rfl]
        constructor
        · intro h
          split_ifs at h with hlinked
          exact absurd h hlinked
        · exact fun h => nomatch h.1
      · rw [if_neg ht, ← ih]
        constructor
        · intro h
          split_ifs at h
          exact h
        · intro h
          rw [if_neg fun h₀ => ht (Option.some.inj (h₀.symm.trans h))]
          exact h

/-- the two maps hold the links `P` -/
structure HoldsLinks (m : NetworkManager) (P : PeerId ≃. TransportPeer) : Prop where
  peerByNode : ∀ n, m.peerByNode.get? n = P n
  nodeByTransport : ∀ t, m.nodeByTransport.get? t = P.symm t

omit [Crypto] in
/-- the entry of a displaced key is removed, the one just written is not -/
theorem get?_displaced {K V : Type} [LinearOrder K] [DecidableEq K] (m : BTreeMap K V) (previous k x : K) (v : V) :
    (if previous ≠ k then (m.insert k v).remove previous else m.insert k v).get? x =
      if x = k then some v else if some previous = some x then none else m.get? x := by
  by_cases hk : previous = k
  · rw [if_neg (not_not_intro hk), BTreeMap.get?_insert, hk]
    by_cases hx : x = k
    · rw [if_pos hx, if_pos hx.symm]
    · rw [if_neg hx, if_neg (Ne.symm hx), if_neg fun h => hx (Option.some.inj h).symm]
  · rw [if_pos hk, BTreeMap.get?_remove, BTreeMap.get?_insert]
    by_cases hx : x = k
    · rw [if_pos hx, if_neg fun h => hk (h.trans hx), if_pos hx.symm]
    · simp only [if_neg hx, if_neg (Ne.symm hx), Option.some.injEq]

omit [Crypto] in
theorem get?_registered {K V : Type} [LinearOrder K] [DecidableEq K] (m : BTreeMap K V) (k x : K) (v : V) :
    (m.insert k v).get? x = if x = k then some v else if none = some x then none else m.get? x := by
  rw [BTreeMap.get?_insert, if_neg fun h : none = some x => nomatch h]
  by_cases hx : x = k
  · rw [if_pos hx, if_pos hx.symm]
  · rw [if_neg hx, if_neg (Ne.symm hx)]

namespace HoldsLinks

variable {m : NetworkManager} {P : PeerId ≃. TransportPeer}

theorem register (h : HoldsLinks m P) (t : TransportPeer) (verified : VerifiedPeer) :
    HoldsLinks (m.registerVerifiedPeer t verified).1 (Links.relink P verified.nodePeerId t) := by
  refine ⟨fun n => ?_, fun t' => ?_⟩
  · rw [Links.relink_apply, NetworkManager.registerVerifiedPeer]
    dsimp only
    simp only [← P.eq_some_iff]
    rw [← h.nodeByTransport, ← h.peerByNode]
    cases m.nodeByTransport.get? t with
    | none => exact get?_registered m.peerByNode _ n t
    | some previous => exact get?_displaced m.peerByNode _ _ n t
  · rw [Links.relink_symm_apply, NetworkManager.registerVerifiedPeer]
    dsimp only
    simp only [P.eq_some_iff]
    rw [← h.peerByNode, ← h.nodeByTransport]
    cases m.peerByNode.get? verified.nodePeerId with
    | none => exact get?_registered m.nodeByTransport _ t' _
    | some previous => exact get?_displaced m.nodeByTransport _ _ t' _

theorem unregister (h : HoldsLinks m P) (t : TransportPeer) :
    HoldsLinks (m.unregisterTransportPeer t).1 (Links.unlink P t) := by
  unfold NetworkManager.unregisterTransportPeer
  split
  · rename_i hnone
    rw [h.nodeByTransport] at hnone
    refine ⟨fun n => ?_, fun t' => ?_⟩
    · rw [Links.unlink_apply, h.peerByNode, if_neg]
      exact fun hlinked => nomatch hnone.symm.trans (P.eq_some_iff.2 hlinked)
    · rw [Links.unlink_symm_apply, h.nodeByTransport]
      split_ifs with ht
      · rw [ht, hnone]
      · rfl
  · rename_i node hnode
    rw [h.nodeByTransport] at hnode
    have hlinked : P node = some t := P.eq_some_iff.1 hnode
    refine ⟨fun n => ?_, fun t' => ?_⟩
    · rw [Links.unlink_apply, BTreeMap.get?_remove, h.peerByNode]
      by_cases hn : node = n
      · rw [if_pos hn, ← hn, if_pos hlinked]
      · rw [if_neg hn, if_neg]
        exact fun hother => hn (P.inj hlinked hother)
    · rw [Links.unlink_symm_apply, BTreeMap.get?_remove, h.nodeByTransport]
      by_cases ht : t' = t
      · rw [if_pos ht, if_pos ht.symm]
      · rw [if_neg ht, if_neg (Ne.symm ht)]

theorem call (h : HoldsLinks m P) (call : RegistryCall) : HoldsLinks (m.call call).1 (call.update P) := by
  cases call with
  | register t verified => exact h.register t verified
  | unregister t => exact h.unregister t

end HoldsLinks

/-- what every sequence of calls keeps -/
theorem holdsLinks_of_reached {C : Registry → RegistryCall → Prop} {σ : Registry} (h : Registry.machine.Reached C σ) :
    HoldsLinks σ.manager (registered σ.calls) := by
  refine Machine.Reached.invariant (I := fun σ : Registry => HoldsLinks σ.manager (registered σ.calls)) ?_
    (fun σ call σ' hI _ hexec => ?_) h
  · rintro _ rfl
    exact ⟨fun _ => rfl, fun _ => rfl⟩
  · cases hexec
    exact hI.call call

/-! ## Frames -/

/-- the transport a call of the swarm is addressed to -/
def SwarmCall.addressee : SwarmCall → Option TransportPeer
  | .announceRequest peer _ | .announceResponse peer _ | .syncRequest peer _ => some peer
  | .publish _ | .syncResponse _ _ => none

/-- the transport an event came from -/
def SwarmEvent.source : SwarmEvent → Option TransportPeer
  | .connectionClosed peer | .identifyReceived peer _ | .gossipsubMessage peer _ | .nodeHello peer _
  | .syncRequest peer _ _ | .announceRequest peer _ | .announceResponse peer _ => some peer
  | .syncResponse _ _ | .syncOutboundFailure _ => none

/-- the node a command is for -/
def NetworkCommand.target : NetworkCommand → Option PeerId
  | .sendFrame peer _ | .requestBlocks peer _ _ => some peer
  | .broadcastFrame _ => none

/-- no sync request is under way, in either direction -/
structure NoRequests (m : NetworkManager) : Prop where
  inbound : ∀ n, m.pendingSyncResponses.get? n = none
  outbound : ∀ id, m.outboundSyncRequests.get? id = none

namespace NoRequests

variable {m : NetworkManager}

theorem call (h : NoRequests m) (call : RegistryCall) : NoRequests (m.call call).1 := by
  cases call with
  | register t verified => exact ⟨h.inbound, h.outbound⟩
  | unregister t =>
    unfold NetworkManager.call NetworkManager.unregisterTransportPeer
    dsimp only
    split
    · exact h
    · refine ⟨fun n => ?_, fun id => ?_⟩
      · rw [BTreeMap.get?_remove, h.inbound, ite_self]
      · exact BTreeMap.get?_retain_of_none (h.outbound id)

theorem of_reached {C : Registry → RegistryCall → Prop} {σ : Registry} (h : Registry.machine.Reached C σ) :
    NoRequests σ.manager := by
  refine Machine.Reached.invariant (I := fun σ : Registry => NoRequests σ.manager) ?_
    (fun σ move σ' hI _ hexec => ?_) h
  · rintro _ rfl
    exact ⟨fun _ => rfl, fun _ => rfl⟩
  · cases hexec
    exact hI.call move

/-- what is sent to a node goes to its transport -/
theorem addressee (h : NoRequests m) {command : NetworkCommand} {n : PeerId} (htarget : command.target = some n)
    {m' : NetworkManager} {calls : List SwarmCall} (hok : m.handleCommand command = .ok (m', calls)) :
    ∀ c ∈ calls, ∃ t, c.addressee = some t ∧ m.peerByNode.get? n = some t := by
  have hrequest : ∀ request, ∀ c ∈ (m.sendSyncRequest n request).2,
      ∃ t, c.addressee = some t ∧ m.peerByNode.get? n = some t := by
    intro request c hc
    unfold NetworkManager.sendSyncRequest at hc
    split at hc
    · exact nomatch hc
    · rename_i t ht
      cases List.mem_singleton.1 hc
      exact ⟨t, rfl, ht⟩
  cases command with
  | broadcastFrame frame => cases htarget
  | requestBlocks peer fromHeight toHeight =>
    cases htarget
    obtain ⟨-, rfl⟩ := Prod.mk.inj (Except.ok.inj hok)
    exact hrequest _
  | sendFrame peer frame =>
    cases htarget
    replace hok : m.sendFrame n frame = .ok (m', calls) := hok
    unfold NetworkManager.sendFrame at hok
    split at hok
    · cases hok
      exact fun c hc => nomatch hc
    · rename_i t ht
      split at hok
      · cases hok
      · cases hok
        intro c hc
        cases List.mem_singleton.1 hc
        exact ⟨t, rfl, ht⟩
      · obtain ⟨-, rfl⟩ := Prod.mk.inj (Except.ok.inj hok)
        exact hrequest _
      · -- no channel waits
        rw [NetworkManager.sendSyncResponse, h.inbound] at hok
        cases hok
        exact fun c hc => nomatch hc
      · cases hok
        exact fun c hc => nomatch hc

/-- a frame is attributed to the node of the transport it came from -/
theorem source (h : NoRequests m) {event : SwarmEvent} {n : PeerId} {frame : Frame}
    (hmem : .frameReceived n frame ∈ (m.handleSwarmEvent event).2.1) :
    ∃ t, event.source = some t ∧ m.nodeByTransport.get? t = some n := by
  cases event with
  | connectionClosed peer =>
    simp only [NetworkManager.handleSwarmEvent, NetworkManager.unregisterTransportPeer] at hmem
    split at hmem
    · cases hmem
    · cases List.mem_singleton.1 hmem
  | identifyReceived peer host => cases hmem
  | gossipsubMessage peer data | syncRequest peer request channel | announceRequest peer request
  | announceResponse peer response =>
    simp only [NetworkManager.handleSwarmEvent] at hmem
    split at hmem
    · cases hmem
    · rename_i node hnode
      cases List.mem_singleton.1 hmem
      exact ⟨peer, rfl, hnode⟩
  | nodeHello peer verified =>
    simp only [NetworkManager.handleSwarmEvent, NetworkManager.registerVerifiedPeer] at hmem
    split at hmem
    · cases List.mem_singleton.1 hmem
    · cases hmem
  | syncResponse requestId response =>
    simp only [NetworkManager.handleSwarmEvent, h.outbound] at hmem
    cases hmem
  | syncOutboundFailure requestId => cases hmem

end NoRequests

/-- **The peer maps stay inverse.** After every sequence of registrations and unregistrations a node has a transport in one
map exactly if the transport has the node in the other, and exactly if each was last proved with the other; what is sent to
a node goes only to a transport that proved it last, and a frame is attributed only to the node its transport proved
last. -/
theorem peer_maps_inverse {σ : Registry} (h : Registry.machine.Reached (fun _ _ => True) σ) :
    (∀ n t, σ.manager.peerByNode.get? n = some t ↔ σ.manager.nodeByTransport.get? t = some n) ∧
    (∀ n t, σ.manager.peerByNode.get? n = some t ↔ proved t σ.calls = some n ∧ prover n σ.calls = some t) ∧
    (∀ command n m calls, command.target = some n → σ.manager.handleCommand command = .ok (m, calls) →
      ∀ c ∈ calls, ∃ t, c.addressee = some t ∧ proved t σ.calls = some n ∧ prover n σ.calls = some t) ∧
    ∀ event n frame, .frameReceived n frame ∈ (σ.manager.handleSwarmEvent event).2.1 →
      ∃ t, event.source = some t ∧ proved t σ.calls = some n := by
  have hholds := holdsLinks_of_reached h
  have hrequests := NoRequests.of_reached h
  have hlinked (n : PeerId) (t : TransportPeer) :
      σ.manager.peerByNode.get? n = some t ↔ proved t σ.calls = some n ∧ prover n σ.calls = some t := by
    rw [hholds.peerByNode]
    exact registered_eq_some_iff σ.calls n t
  have hinverse (n : PeerId) (t : TransportPeer) :
      σ.manager.peerByNode.get? n = some t ↔ σ.manager.nodeByTransport.get? t = some n := by
    rw [hholds.peerByNode, hholds.nodeByTransport]
    exact (registered σ.calls).eq_some_iff.symm
  refine ⟨hinverse, hlinked, fun command n m calls htarget hok c hc => ?_, fun event n frame hmem => ?_⟩
  · obtain ⟨t, ht, hpeer⟩ := hrequests.addressee htarget hok c hc
    exact ⟨t, ht, (hlinked n t).1 hpeer⟩
  · obtain ⟨t, ht, hnode⟩ := hrequests.source hmem
    exact ⟨t, ht, ((hlinked n t).1 ((hinverse n t).2 hnode)).1⟩

/-! ## What the engine was told -/

/-- whether the last event about `n` is that it connected -/
def reported (n : PeerId) (events : List RuntimeEvent) : Bool :=
  events.foldl (fun connected event =>
    match event with
    | .peerConnected peer => if peer = n then true else connected
    | .peerDisconnected peer => if peer = n then false else connected
    | _ => connected) false

/-- the engine was told of exactly the registered nodes -/
def Registry.Told (σ : Registry) : Prop := ∀ n, reported n σ.events = σ.manager.peerByNode.contains n

/-- a transport that is registered for a node does not present a hello for another -/
def Undisplaced (σ : Registry) : RegistryCall → Prop
  | .register transportPeer verified =>
    ∀ n, σ.manager.nodeByTransport.get? transportPeer = some n → n = verified.nodePeerId
  | .unregister _ => True

theorem reported_registered (m : NetworkManager) (t : TransportPeer) (verified : VerifiedPeer) (n : PeerId)
    (events : List RuntimeEvent) (h : reported verified.nodePeerId events = m.peerByNode.contains verified.nodePeerId) :
    reported n (events ++ (m.registerVerifiedPeer t verified).2) =
      if verified.nodePeerId = n then true else reported n events := by
  unfold NetworkManager.registerVerifiedPeer
  dsimp only
  split
  · rw [reported, List.foldl_append]
    rfl
  · rename_i hsame
    rw [List.append_nil]
    split_ifs with hn
    · rw [← hn, h, BTreeMap.contains_iff]
      exact ⟨t, not_not.1 fun hne => hsame (.inl hne)⟩
    · rfl

/-- the engine knows the registered nodes after a registration exactly if no node lost its transport to another -/
theorem told_register {σ : Registry} {P : PeerId ≃. TransportPeer} (hP : HoldsLinks σ.manager P) (htold : σ.Told)
    (t : TransportPeer) (verified : VerifiedPeer) :
    Registry.Told ⟨(σ.manager.registerVerifiedPeer t verified).1,
        σ.events ++ (σ.manager.registerVerifiedPeer t verified).2, .register t verified :: σ.calls⟩ ↔
      Undisplaced σ (.register t verified) := by
  have hreported (n : PeerId) := reported_registered σ.manager t verified n σ.events (htold _)
  have hcontains (n : PeerId) : (σ.manager.registerVerifiedPeer t verified).1.peerByNode.contains n =
      if n = verified.nodePeerId then true else if P n = some t then false else σ.manager.peerByNode.contains n := by
    rw [BTreeMap.contains, (hP.register t verified).peerByNode, Links.relink_apply, BTreeMap.contains, hP.peerByNode]
    split_ifs
    · rfl
    · rfl
    · rfl
  constructor
  · intro h n hnode
    by_contra hne
    rw [hP.nodeByTransport] at hnode
    have hlinked : P n = some t := P.eq_some_iff.1 hnode
    -- `n` is gone from the maps, but the engine was not told
    have hghost : reported n _ = _ := h n
    rw [hreported, hcontains, if_neg (Ne.symm hne), if_neg hne, if_pos hlinked, htold, BTreeMap.contains, hP.peerByNode,
      hlinked] at hghost
    cases hghost
  · intro h n
    refine (hreported n).trans (.trans ?_ (hcontains n).symm)
    by_cases hn : n = verified.nodePeerId
    · rw [if_pos hn, if_pos hn.symm]
    · rw [if_neg hn, if_neg (Ne.symm hn), if_neg, htold]
      exact fun hlinked => hn (h n ((hP.nodeByTransport t).trans (P.eq_some_iff.2 hlinked)))

theorem told_unregister {σ : Registry} (htold : σ.Told) (t : TransportPeer) :
    Registry.Told ⟨(σ.manager.unregisterTransportPeer t).1, σ.events ++ (σ.manager.unregisterTransportPeer t).2,
      .unregister t :: σ.calls⟩ := by
  intro n
  dsimp only
  cases hnode : σ.manager.nodeByTransport.get? t with
  | none =>
    rw [NetworkManager.unregisterTransportPeer, hnode, List.append_nil]
    exact htold n
  | some node =>
    rw [NetworkManager.unregisterTransportPeer, hnode]
    dsimp only
    rw [reported, List.foldl_append, BTreeMap.contains, BTreeMap.get?_remove]
    dsimp only [List.foldl]
    by_cases hn : node = n
    · rw [if_pos hn, if_pos hn]
      rfl
    · rw [if_neg hn, if_neg hn]
      exact htold n

theorem told_call {σ : Registry} {P : PeerId ≃. TransportPeer} (hP : HoldsLinks σ.manager P) (htold : σ.Told)
    (call : RegistryCall) :
    Registry.Told ⟨(σ.manager.call call).1, σ.events ++ (σ.manager.call call).2, call :: σ.calls⟩ ↔
      Undisplaced σ call := by
  cases call with
  | register t verified => exact told_register hP htold t verified
  | unregister t => exact ⟨fun _ => trivial, fun _ => told_unregister htold t⟩

/-- **The engine knows the registered nodes.** In every run in which no transport that is registered for a node presents a
hello for another: the nodes whose last event is that they connected are the nodes registered, and the next call keeps
this exactly if it meets the condition. -/
theorem engine_view_matches_registry {σ : Registry} (h : Registry.machine.Reached Undisplaced σ) :
    (∀ n, reported n σ.events = true ↔ σ.manager.peerByNode.contains n = true) ∧
    ∀ call σ', Registry.machine.exec σ call = some σ' →
      ((∀ n, reported n σ'.events = true ↔ σ'.manager.peerByNode.contains n = true) ↔ Undisplaced σ call) := by
  have htold : σ.Told := by
    refine (Machine.Reached.invariant (I := fun σ : Registry => HoldsLinks σ.manager (registered σ.calls) ∧ σ.Told) ?_ ?_ h).2
    · rintro _ rfl
      exact ⟨⟨fun _ => rfl, fun _ => rfl⟩, fun _ => rfl⟩
    · intro σ call σ' hI hcond hexec
      cases hexec
      exact ⟨hI.1.call call, (told_call hI.1 hI.2 call).2 hcond⟩
  refine ⟨fun n => Bool.eq_iff_iff.1 (htold n), fun call σ' hexec => ?_⟩
  cases hexec
  rw [← told_call (holdsLinks_of_reached h) htold call]
  exact forall_congr' fun n => Bool.eq_iff_iff.symm

instance (σ : Registry) (call : RegistryCall) : Decidable (Undisplaced σ call) :=
  match call with
  | .register transportPeer verified =>
    match h : σ.manager.nodeByTransport.get? transportPeer with
    | none => .isTrue fun _ hn => nomatch h.symm.trans hn
    | some node =>
      if hnode : node = verified.nodePeerId then .isTrue fun _ hn => (Option.some.inj (h.symm.trans hn)).symm.trans hnode
      else .isFalse fun hall => hnode (hall node h)
  | .unregister _ => .isTrue trivial

end Peers

section Witness

open Sample

/-! ### A node moves to another transport, which is then closed -/

def moved : List RegistryCall := [.register [1] ⟨peer, 64⟩, .register [2] ⟨peer, 64⟩, .unregister [1]]

def onSecond : Registry := (Registry.machine.replay Undisplaced moved ⟨.new, [], []⟩).get (by decide +kernel)

theorem onSecond_reached : Registry.machine.Reached Undisplaced onSecond :=
  Machine.Reached.of_replay (.start rfl) (Option.some_get _).symm

/-- the close of the first transport does not take the node away -/
theorem engine_view_matches_registry_of_onSecond :
    onSecond.manager.peerByNode.contains peer = true ∧ reported peer onSecond.events = true :=
  ⟨by decide +kernel, ((engine_view_matches_registry onSecond_reached).1 peer).2 (by decide +kernel)⟩

/-! ### A transport proves two nodes, one after the other -/

def renamed : Registry :=
  (Registry.machine.replay (fun _ _ => True) [.register [1] ⟨peer, 64⟩, .register [1] ⟨otherPeer, 64⟩] ⟨.new, [], []⟩).get
    (by decide +kernel)

theorem renamed_reached : Registry.machine.Reached (fun _ _ => True) renamed :=
  Machine.Reached.of_replay (.start rfl) (Option.some_get _).symm

/-- the first node is gone from the maps, and the engine still has it as connected -/
theorem ghost_peer :
    ∃ σ : Registry, Registry.machine.Reached (fun _ _ => True) σ ∧
      ∃ n, reported n σ.events = true ∧ σ.manager.peerByNode.contains n = false :=
  ⟨renamed, renamed_reached, peer, by decide +kernel, by decide +kernel⟩

theorem peer_maps_inverse_of_renamed :
    renamed.manager.nodeByTransport.get? [1] = some otherPeer ∧ renamed.manager.peerByNode.get? otherPeer = some [1] :=
  ⟨by decide +kernel, ((peer_maps_inverse renamed_reached).1 otherPeer [1]).2 (by decide +kernel)⟩

end Witness

end RustProof
