/-
Whom the engine asks for blocks.

A request is kept with the peer it went to, and goes when that peer answers or disconnects. All new requests of a step go
to one peer (`NodeEngine.asks`): the one that connected or answered, or, when the storage has no snapshot of a missing
parent, the one that sent the first block parked under it. That one may have gone before the storage replied.

Results:
- `requests_name_connected_peers`: in every run in which no such reply meets a peer that is gone, requests are open to
  connected peers only and made to connected peers only; and a reply that meets one breaks it at once;
- `asked_after_disconnect`: a run in which it happens.
-/
import RustProof.Lib.Machine
import RustProof.Sync.Paging

namespace RustProof

section Asking

variable [Crypto] {ck : OverflowChecks}

/-- the peer that the new requests of a step go to -/
def NodeEngine.asks (e : NodeEngine) : NodeInput → Option PeerId
  | .peerConnected peer | .frameReceived peer _ | .importRequested peer _ _ => some peer
  | .storageLoaded blockHash none => ((e.pendingBlocks.get? blockHash).bind List.head?).map ParkedBlock.peer
  | _ => none

def NodeInput.peersAfter (input : NodeInput) (peers : BTreeMap PeerId PeerState) : BTreeMap PeerId PeerState :=
  match input with
  | .peerConnected peer => peers.insert peer ⟨true, 0⟩
  | .peerDisconnected peer => peers.remove peer
  | _ => peers

/-! ## The requests of a step -/

theorem importFrame_peers : NodeEngine.ImportFrame fun e e' _ => e'.peers = e.peers where
  refl _ := rfl
  trans h h' := h'.trans h
  report _ _ := rfl
  add _ _ _ _ := rfl
  take _ _ := rfl
  park _ _ _ := rfl

/-- all requests a part of a step makes go to `peer?` -/
structure Asked (peer? : Option PeerId) (requests : List PendingRequest) (e' : NodeEngine) (acts : List NodeAction) :
    Prop where
  requests : ∃ added, e'.pendingRequests = requests ++ added ∧ ∀ r ∈ added, peer? = some r.peer
  acts : ∀ peer fromHeight toHeight, .requestBlocks peer fromHeight toHeight ∈ acts → peer? = some peer

/-- nothing asked -/
theorem Asked.none {e' : NodeEngine} {acts : List NodeAction} {requests : List PendingRequest}
    (hrequests : e'.pendingRequests = requests) (hacts : ∀ a ∈ acts, a.isRequest = false) (peer? : Option PeerId) :
    Asked peer? requests e' acts := by
  refine ⟨⟨[], hrequests.trans (List.append_nil _).symm, fun r hr => nomatch hr⟩, ?_⟩
  intro peer fromHeight toHeight ha
  cases hacts _ ha

theorem Asked.of_noPaging {e e' : NodeEngine} {acts : List NodeAction} (h : NoPaging e e' acts) (peer? : Option PeerId) :
    Asked peer? e.pendingRequests e' acts :=
  Asked.none h.requests h.none peer?

/-- one request asked, among other actions -/
theorem Asked.one {e' : NodeEngine} {acts : List NodeAction} {requests : List PendingRequest} {peer : PeerId}
    {fromHeight toHeight deadlineMs : UInt64}
    (hrequests : e'.pendingRequests = requests ++ [⟨peer, fromHeight, toHeight, deadlineMs⟩])
    (hacts : ∀ a ∈ acts, a.isRequest = true → a = .requestBlocks peer fromHeight toHeight) :
    Asked (some peer) requests e' acts := by
  refine ⟨⟨_, hrequests, ?_⟩, ?_⟩
  · intro r hr
    rw [List.mem_singleton.1 hr]
  · intro q f t ha
    cases hacts _ ha rfl
    rfl

/-- an answered request that goes on asks the same peer -/
theorem continueRequest_peer (e : NodeEngine) (request : PendingRequest) {n : UInt64} (hn : n ≠ 0) :
    ∃ next : PendingRequest, next.peer = request.peer ∧ e.continueRequest request n =
      ({ e with pendingRequests := e.pendingRequests ++ [next] },
        [.requestBlocks next.peer next.fromHeight next.toHeight]) := by
  rw [NodeEngine.continueRequest, if_neg hn]
  refine ⟨⟨request.peer, n, if n ≤ request.toHeight then request.toHeight
    else saturatingAdd n (saturatingSub request.toHeight request.fromHeight),
    saturatingAdd e.currentTimeMs requestTimeoutMs⟩, rfl, ?_⟩
  rfl

theorem continueRequests_asked {peer : PeerId} (n : UInt64) {requests : List PendingRequest}
    (hown : ∀ r ∈ requests, r.peer = peer) (e : NodeEngine) :
    Asked (some peer) e.pendingRequests (NodeEngine.continueRequests n requests e).1
        (NodeEngine.continueRequests n requests e).2 ∧
      (NodeEngine.continueRequests n requests e).1.peers = e.peers := by
  induction requests generalizing e with
  | nil =>
    refine ⟨Asked.none ?_ ?_ _, rfl⟩
    · rfl
    · intro a ha
      cases ha
  | cons r requests ih =>
    have hrest : ∀ x ∈ requests, x.peer = peer := fun x hx => hown x (List.mem_cons_of_mem _ hx)
    rw [NodeEngine.continueRequests]
    by_cases hzero : n = 0
    · have hskip : e.continueRequest r n = (e, []) := by rw [NodeEngine.continueRequest, if_pos hzero]
      rw [hskip]
      exact ih hrest e
    · obtain ⟨next, hpeer, heq⟩ := continueRequest_peer e r hzero
      rw [hown r List.mem_cons_self] at hpeer
      rw [heq]
      obtain ⟨⟨⟨added, hadded, hpeers⟩, hacts⟩, hsame⟩ :=
        ih hrest { e with pendingRequests := e.pendingRequests ++ [next] }
      refine ⟨⟨⟨next :: added, ?_, ?_⟩, ?_⟩, hsame⟩
      · rw [List.append_assoc] at hadded
        exact hadded
      · intro x hx
        rcases List.mem_cons.1 hx with rfl | hx
        · exact congrArg some hpeer.symm
        · exact hpeers x hx
      · intro q fromHeight toHeight ha
        rcases List.mem_append.1 ha with ha | ha
        · cases List.mem_singleton.1 ha
          exact congrArg some hpeer.symm
        · exact hacts q fromHeight toHeight ha

theorem handleSyncResponse_asked {e e' : NodeEngine} {peer : PeerId} {response : SyncResponse} {acts : List NodeAction}
    (h : e.handleSyncResponse ck peer response = .ok (e', acts)) :
    Asked (some peer) (e.pendingRequests.filter fun r => decide (r.peer ≠ peer)) e' acts ∧ e'.peers = e.peers := by
  unfold NodeEngine.handleSyncResponse at h
  obtain ⟨⟨e₁, acts₁⟩, hingest, h⟩ := bind_ok h
  have himport := importFrame_noPaging.ingestBlocks _ hingest
  have hpeers := importFrame_peers.ingestBlocks _ hingest
  -- an acknowledgement asks for nothing
  have hack : ∀ l : List NodeAction, ∀ q f t, .requestBlocks q f t ∈ (if l.isEmpty then [.frameReceived peer] else l) →
      NodeAction.requestBlocks q f t ∈ l := by
    intro l q f t ha
    split_ifs at ha
    · cases List.mem_singleton.1 ha
    · exact ha
  cases hn : response.nextHeight with
  | none =>
    rw [hn] at h
    cases h
    have hasked := Asked.of_noPaging himport (some peer)
    exact ⟨⟨hasked.requests, fun q f t ha => hasked.acts q f t (hack _ q f t ha)⟩, hpeers⟩
  | some n =>
    rw [hn] at h
    cases h
    have hown : ∀ r ∈ e.pendingRequests.filter (fun r => decide (r.peer = peer)), r.peer = peer := by
      intro r hr
      exact of_decide_eq_true (List.mem_filter.1 hr).2
    obtain ⟨hasked, hsame⟩ := continueRequests_asked n hown e₁
    refine ⟨⟨?_, ?_⟩, hsame.trans hpeers⟩
    · have hadded := hasked.requests
      rw [himport.requests] at hadded
      exact hadded
    · intro q f t ha
      rcases List.mem_append.1 (hack _ q f t ha) with ha | ha
      · cases himport.none _ ha
      · exact hasked.acts q f t ha

/-- a part of a step that makes no request and leaves the peers alone -/
theorem quiet_asked {e e' : NodeEngine} {acts : List NodeAction} (hrequests : e'.pendingRequests = e.pendingRequests)
    (hpeers : e'.peers = e.peers) (hacts : ∀ a ∈ acts, a.isRequest = false) (peer? : Option PeerId) :
    Asked peer? e.pendingRequests e' acts ∧ e'.peers = e.peers :=
  ⟨Asked.of_noPaging ⟨hrequests, hacts⟩ peer?, hpeers⟩

theorem handleMessage_asked {e e' : NodeEngine} {peer : PeerId} {frame : Frame} {message : NetworkMessage}
    {acts : List NodeAction} (hframe : NetworkMessage.fromBytes frame = .ok message)
    (h : e.handleMessage ck peer message = .ok (e', acts)) :
    Asked (some peer) (e.pendingRequests.filter (NodeInput.frameReceived peer frame).keeps) e' acts ∧
      e'.peers = e.peers := by
  have hall : (∀ response, message ≠ .syncResponse response) →
      e.pendingRequests.filter (NodeInput.frameReceived peer frame).keeps = e.pendingRequests := by
    intro hother
    refine List.filter_eq_self.2 fun r _ => ?_
    simp only [NodeInput.keeps, hframe]
    cases message with
    | syncResponse response => exact absurd rfl (hother response)
    | _ => rfl
  cases message with
  | announceRequest request =>
    obtain ⟨kind⟩ := request
    cases kind with
    | newBlock block =>
      rw [hall (by rintro _ ⟨⟩)]
      have himport := importFrame_noPaging.ingestBlock h
      exact quiet_asked himport.requests (importFrame_peers.ingestBlock h) himport.none _
    | newTransaction tx =>
      rw [hall (by rintro _ ⟨⟩)]
      simp only [NodeEngine.handleMessage, NodeEngine.announceTransaction, Except.ok.injEq] at h
      split at h
      · cases h
        refine quiet_asked ?_ ?_ ?_ _
        · rfl
        · rfl
        intro a ha
        split_ifs at ha
        · obtain ⟨p, -, rfl⟩ := List.mem_map.1 ha
          rfl
        · cases ha
      · cases h
        exact quiet_asked (e := e) rfl rfl (by simp [NodeAction.isRequest]) _
  | syncRequest request =>
    rw [hall (by rintro _ ⟨⟩)]
    obtain ⟨response, -, h⟩ := bind_ok h
    cases h
    exact quiet_asked (e := e) rfl rfl (by simp [NodeAction.isRequest]) _
  | syncResponse response =>
    have hkeeps : (NodeInput.frameReceived peer frame).keeps = fun r => decide (r.peer ≠ peer) := by
      funext r
      simp only [NodeInput.keeps, hframe]
    rw [hkeeps]
    exact handleSyncResponse_asked h
  | announceResponse response =>
    rw [hall (by rintro _ ⟨⟩)]
    cases h
    exact quiet_asked (e := e) rfl rfl (by simp [NodeAction.isRequest]) _

theorem submitTransaction_asked {e e' : NodeEngine} {tx : Transaction} {acts : List NodeAction}
    (h : e.submitTransaction tx = (e', acts)) :
    Asked (e.asks (.localTransactionSubmitted tx)) e.pendingRequests e' acts ∧ e'.peers = e.peers := by
  unfold NodeEngine.submitTransaction at h
  split at h
  · cases h
    refine quiet_asked ?_ ?_ ?_ _
    · rfl
    · rfl
    intro a ha
    split_ifs at ha
    · cases List.mem_singleton.1 ha
      rfl
    · cases ha
  · cases h
    exact quiet_asked (e := e) rfl rfl (by simp [NodeAction.isRequest]) _

/-- only where the storage has no snapshot it asks, for the block that is missing -/
theorem handleStorageLoaded_asked {e e' : NodeEngine} {blockHash : Hash} {stateBytes : Option (List UInt8)}
    {acts : List NodeAction} (h : e.handle ck (.storageLoaded blockHash stateBytes) = .ok (e', acts)) :
    Asked (e.asks (.storageLoaded blockHash stateBytes)) e.pendingRequests e' acts ∧ e'.peers = e.peers := by
  simp only [NodeEngine.handle, NodeEngine.handleStorageLoaded] at h
  split at h
  · cases h
    exact quiet_asked (e := e) rfl rfl (by simp [NodeAction.isRequest]) _
  rename_i parked hparked
  split at h
  · split at h
    · cases h
    · cases h
      exact quiet_asked (e := e) rfl rfl (by simp [NodeAction.isRequest]) _
    · have himport := importFrame_noPaging.importParkedBlocks h
      exact quiet_asked himport.requests (importFrame_peers.importParkedBlocks h) himport.none _
  · cases h
    have hasks : e.asks (.storageLoaded blockHash none) = some parked.peer := by
      simp only [NodeEngine.asks, hparked, Option.map_some]
    rw [hasks]
    refine ⟨Asked.one rfl ?_, rfl⟩
    simp [NodeAction.isRequest]

theorem handle_asked {e e' : NodeEngine} {input : NodeInput} {acts : List NodeAction}
    (h : e.handle ck input = .ok (e', acts)) :
    Asked (e.asks input) (e.pendingRequests.filter input.keeps) e' acts ∧ e'.peers = input.peersAfter e.peers := by
  have hall : e.pendingRequests.filter (fun _ => true) = e.pendingRequests := List.filter_eq_self.2 fun _ _ => rfl
  cases input with
  | tick nowMs =>
    cases h
    refine ⟨Asked.none ?_ ?_ _, rfl⟩
    · rfl
    · intro a ha
      cases ha
  | peerConnected peer =>
    obtain ⟨latest, -, h⟩ := bind_ok h
    cases h
    rw [show NodeInput.keeps (.peerConnected peer) = fun _ => true from rfl, hall]
    refine ⟨Asked.one rfl ?_, rfl⟩
    simp [NodeAction.isRequest]
  | peerDisconnected peer =>
    cases h
    refine ⟨Asked.none ?_ ?_ _, rfl⟩
    · rfl
    · simp [NodeAction.isRequest]
  | frameReceived peer frame =>
    simp only [NodeEngine.handle] at h
    split at h
    · rename_i message hframe
      exact handleMessage_asked hframe h
    · rename_i err hframe
      cases h
      have hkeeps : (NodeInput.frameReceived peer frame).keeps = fun _ => true := by
        funext r
        simp only [NodeInput.keeps, hframe]
      rw [hkeeps, hall]
      exact quiet_asked (e := e) rfl rfl (by simp [NodeAction.isRequest]) _
  | localTransactionSubmitted tx =>
    rw [show NodeInput.keeps (.localTransactionSubmitted tx) = fun _ => true from rfl, hall]
    exact submitTransaction_asked (Except.ok.inj h)
  | storageLoaded blockHash stateBytes =>
    rw [show NodeInput.keeps (.storageLoaded blockHash stateBytes) = fun _ => true from rfl, hall]
    exact handleStorageLoaded_asked h
  | persistCompleted persistType =>
    cases h
    rw [show NodeInput.keeps (.persistCompleted persistType) = fun _ => true from rfl, hall]
    exact quiet_asked (e := e) rfl rfl (by simp [NodeAction.isRequest]) _
  | importRequested peer fromHeight toHeight =>
    cases h
    rw [show NodeInput.keeps (.importRequested peer fromHeight toHeight) = fun _ => true from rfl, hall]
    refine ⟨Asked.one rfl ?_, rfl⟩
    simp [NodeAction.isRequest]

/-- the wake action asks for nothing -/
theorem step_asked {e e' : NodeEngine} {input : NodeInput} {acts : List NodeAction}
    (h : e.step ck input = .ok (e', acts)) :
    Asked (e.asks input) (e.pendingRequests.filter input.keeps) e' acts ∧ e'.peers = input.peersAfter e.peers := by
  obtain ⟨⟨e₁, acts₁⟩, hhandle, h⟩ := bind_ok h
  obtain ⟨hasked, hpeers⟩ := handle_asked hhandle
  simp only [NodeEngine.syncWakeAction] at h
  split_ifs at h
  · cases h
    rw [List.append_nil]
    exact ⟨hasked, hpeers⟩
  · cases h
    refine ⟨⟨hasked.requests, ?_⟩, hpeers⟩
    intro q f t ha
    rcases List.mem_append.1 ha with ha | ha
    · exact hasked.acts q f t ha
    · cases hnext : e₁.nextWakeAtMs with
      | none =>
        rw [hnext] at ha
        cases List.mem_singleton.1 ha
      | some atMs =>
        rw [hnext] at ha
        cases List.mem_singleton.1 ha

/-! ## Runs -/

def NodeEngine.connected (e : NodeEngine) (peer : PeerId) : Bool := e.peers.contains peer

/-- an engine, the `LoadSnapshot` actions that were not replied to, and the actions of the last step -/
structure Running where
  engine : NodeEngine
  loads : List Hash
  actions : List NodeAction

def NodeAction.loaded : NodeAction → Option Hash
  | .loadSnapshot blockHash => some blockHash
  | _ => none

namespace Running

/-- a reply takes its load -/
def loadsAfter (σ : Running) : NodeInput → List Hash
  | .storageLoaded blockHash _ => σ.loads.erase blockHash
  | _ => σ.loads

def machine (ck : OverflowChecks) : Machine Running NodeInput where
  init σ := ∃ blockchain, σ = ⟨.new blockchain, [], []⟩
  exec σ input :=
    match σ.engine.step ck input with
    | .ok (e, acts) => some ⟨e, σ.loadsAfter input ++ acts.filterMap NodeAction.loaded, acts⟩
    | .error _ => none

/-- what the runtimes deliver: frames of connected peers, replies to loads, at any later time -/
def Delivers (σ : Running) (input : NodeInput) : Prop :=
  match input with
  | .frameReceived peer _ => σ.engine.connected peer = true
  | .storageLoaded blockHash _ => blockHash ∈ σ.loads
  | .importRequested _ _ _ => False
  | _ => True

/-- where the storage has no snapshot of a missing parent, the peer of the first block parked under it is connected -/
def ParentConnected (σ : Running) (input : NodeInput) : Prop :=
  match input with
  | .storageLoaded blockHash none =>
    ∀ parked ∈ (σ.engine.pendingBlocks.get? blockHash).bind List.head?, σ.engine.connected parked.peer = true
  | _ => True

instance (σ : Running) (input : NodeInput) : Decidable (Delivers σ input) := by
  unfold Delivers
  split <;> infer_instance

instance (σ : Running) (input : NodeInput) : Decidable (ParentConnected σ input) := by
  unfold ParentConnected
  split <;> infer_instance

/-- requests are open to connected peers, and were made to connected peers -/
structure NamesConnected (σ : Running) : Prop where
  requests : ∀ r ∈ σ.engine.pendingRequests, σ.engine.connected r.peer = true
  actions : ∀ peer fromHeight toHeight, .requestBlocks peer fromHeight toHeight ∈ σ.actions →
    σ.engine.connected peer = true

theorem connected_iff {e : NodeEngine} {peer : PeerId} :
    e.connected peer = true ↔ ∃ state, e.peers.get? peer = some state := e.peers.contains_iff peer

/-- a request that is kept is still to a connected peer -/
theorem NamesConnected.keeps {σ : Running} (h : NamesConnected σ) {input : NodeInput} {r : PendingRequest}
    (hr : r ∈ σ.engine.pendingRequests.filter input.keeps) :
    ∃ state, (input.peersAfter σ.engine.peers).get? r.peer = some state := by
  obtain ⟨hmem, hkeep⟩ := List.mem_filter.1 hr
  have hold := connected_iff.1 (h.requests r hmem)
  cases input with
  | peerConnected peer =>
    simp only [NodeInput.peersAfter, BTreeMap.get?_insert]
    split_ifs
    · exact ⟨_, rfl⟩
    · exact hold
  | peerDisconnected peer =>
    have hne : r.peer ≠ peer := of_decide_eq_true hkeep
    simp only [NodeInput.peersAfter, BTreeMap.get?_remove, if_neg hne.symm]
    exact hold
  | _ => exact hold

/-- whom a step asks is connected after it -/
theorem asks_connected {σ : Running} {input : NodeInput} (hdelivers : Delivers σ input)
    (hparent : ParentConnected σ input) {peer : PeerId} (hasks : σ.engine.asks input = some peer) :
    ∃ state, (input.peersAfter σ.engine.peers).get? peer = some state := by
  cases input with
  | peerConnected peer' =>
    cases hasks
    exact ⟨_, BTreeMap.get?_insert_self _ _ _⟩
  | frameReceived peer' frame =>
    cases hasks
    exact connected_iff.1 hdelivers
  | importRequested peer' fromHeight toHeight => exact hdelivers.elim
  | storageLoaded blockHash stateBytes =>
    cases stateBytes with
    | some bytes => cases hasks
    | none =>
      obtain ⟨parked, hparked, rfl⟩ := Option.map_eq_some_iff.1 hasks
      exact connected_iff.1 (hparent parked hparked)
  | _ => cases hasks

/-- a reply without a snapshot asks the peer of the first parked block -/
theorem requests_parent {σ σ' : Running} {blockHash : Hash} {parked : ParkedBlock}
    (hparked : (σ.engine.pendingBlocks.get? blockHash).bind List.head? = some parked)
    (hexec : (machine ck).exec σ (.storageLoaded blockHash none) = some σ') :
    ∃ fromHeight toHeight, .requestBlocks parked.peer fromHeight toHeight ∈ σ'.actions ∧
      σ'.engine.peers = σ.engine.peers := by
  simp only [machine] at hexec
  cases hstep : σ.engine.step ck (.storageLoaded blockHash none) with
  | error f =>
    rw [hstep] at hexec
    cases hexec
  | ok r =>
    obtain ⟨e', acts⟩ := r
    have hpeers := (step_asked hstep).2
    rw [hstep] at hexec
    cases hexec
    simp only [NodeEngine.step, NodeEngine.handle, NodeEngine.handleStorageLoaded, hparked] at hstep
    obtain ⟨⟨e₁, acts₁⟩, hhandle, hstep⟩ := bind_ok hstep
    cases hhandle
    cases hstep
    exact ⟨_, _, List.mem_append_left _ (List.mem_cons_of_mem _ (List.mem_singleton_self _)), hpeers⟩

/-- a step keeps the requests to connected peers exactly if the peer it asks is connected -/
theorem NamesConnected.step_iff {σ σ' : Running} (h : NamesConnected σ) {input : NodeInput}
    (hdelivers : Delivers σ input) (hexec : (machine ck).exec σ input = some σ') :
    NamesConnected σ' ↔ ParentConnected σ input := by
  constructor
  · intro h'
    cases input with
    | storageLoaded blockHash stateBytes =>
      cases stateBytes with
      | some bytes => exact trivial
      | none =>
        intro parked hparked
        obtain ⟨fromHeight, toHeight, hmem, hpeers⟩ := requests_parent hparked hexec
        have hconnected := h'.actions _ _ _ hmem
        rwa [NodeEngine.connected, hpeers] at hconnected
    | _ => exact trivial
  · intro hparent
    simp only [machine] at hexec
    cases hstep : σ.engine.step ck input with
    | error f =>
      rw [hstep] at hexec
      cases hexec
    | ok r =>
      obtain ⟨e', acts⟩ := r
      obtain ⟨⟨⟨added, hadded, hnew⟩, hacts⟩, hpeers⟩ := step_asked hstep
      rw [hstep] at hexec
      cases hexec
      constructor
      · intro r hr
        rw [connected_iff, hpeers]
        rw [hadded] at hr
        rcases List.mem_append.1 hr with hr | hr
        · exact h.keeps hr
        · exact asks_connected hdelivers hparent (hnew r hr)
      · intro peer fromHeight toHeight ha
        rw [connected_iff, hpeers]
        exact asks_connected hdelivers hparent (hacts peer fromHeight toHeight ha)

/-- **Requests name connected peers, as long as a missing parent is asked of a peer that is still there.** -/
theorem requests_name_connected_peers {σ : Running}
    (h : (machine ck).Reached (fun σ input => Delivers σ input ∧ ParentConnected σ input) σ) :
    NamesConnected σ ∧ ∀ input σ', Delivers σ input → (machine ck).exec σ input = some σ' →
      (NamesConnected σ' ↔ ParentConnected σ input) := by
  have hnames : NamesConnected σ := by
    refine h.invariant ?_ ?_
    · rintro σ ⟨blockchain, rfl⟩
      constructor
      · intro r hr
        cases hr
      · intro peer fromHeight toHeight ha
        cases ha
    · intro σ input σ' hσ hcond hexec
      exact (hσ.step_iff hcond.1 hexec).2 hcond.2
  exact ⟨hnames, fun input σ' hdelivers hexec => hnames.step_iff hdelivers hexec⟩

end Running

end Asking

section Witness

open Sample

namespace Running

def fresh : Running := ⟨.new .new, [], []⟩

theorem fresh_reached {C : Running → NodeInput → Prop} : (machine .release).Reached C fresh := .start ⟨_, rfl⟩

/-- `m₂` is parked, as its parent is not there, and its peer stays -/
def askingInputs : List NodeInput := [.peerConnected peer, announce peer m₂, .storageLoaded m₁.hash none]

def asked : Running :=
  ((machine .release).replay (fun σ input => Delivers σ input ∧ ParentConnected σ input) askingInputs fresh).get
    (by decide +kernel)

theorem requests_name_connected_peers_of_asked : NamesConnected asked ∧ asked.engine.pendingRequests.length = 2 :=
  ⟨(requests_name_connected_peers (Machine.Reached.of_replay fresh_reached (Option.some_get _).symm)).1,
    by decide +kernel⟩

/-- the peer goes before the storage replies -/
def leavingInputs : List NodeInput :=
  [.peerConnected peer, announce peer m₂, .peerDisconnected peer, .storageLoaded m₁.hash none]

def askedLate : Running := ((machine .release).replay Delivers leavingInputs fresh).get (by decide +kernel)

theorem asked_after_disconnect : (machine .release).Reached Delivers askedLate ∧ ¬ NamesConnected askedLate := by
  refine ⟨Machine.Reached.of_replay fresh_reached (Option.some_get _).symm, ?_⟩
  intro h
  have hall : ∀ r ∈ askedLate.engine.pendingRequests, askedLate.engine.connected r.peer = true := h.requests
  exact absurd hall (by decide +kernel)

end Running

end Witness

end RustProof
