/-
Two sync requests to one peer at a time (`NodeEngine::step` for a sync response, `continue_request`).

A response has a range of blocks and the height to go on at, but names no request. The engine takes it as the answer to
every request that is open to the peer: all of them are closed, and all of them go on at the height in the response
(`answer_requests`).

Results:
- `concurrent_requests_independent`: with two requests open, both responses lead to what the requests would have led to on
  their own exactly if neither of the two goes on;
- `continued_before_answered`: a response that goes on also takes the other request on, which has no response yet.
-/
import RustProof.Node.Requests
import RustProof.Sync.Quiesce

namespace RustProof

section Paging

variable [Crypto] {ck : OverflowChecks}

def PendingRequest.range (r : PendingRequest) : SyncRequest := ⟨r.fromHeight, r.toHeight⟩

/-- the follow-up of a request that got `response` -/
def continuation (response : SyncResponse) (request : SyncRequest) : List SyncRequest :=
  match response.nextHeight with
  | none => []
  | some n => if n = 0 then [] else [⟨n, nextToHeight request n⟩]

/-- whether a response says where to go on -/
def SyncResponse.goesOn (response : SyncResponse) : Bool := response.nextHeight.any fun n => decide (n ≠ 0)

theorem continuation_of_goesOn {response : SyncResponse} (h : response.goesOn = true) (request : SyncRequest) :
    ∃ next, continuation response request = [next] := by
  obtain ⟨n, hn, hne⟩ := (Option.any_eq_true _ _).1 h
  rw [continuation, hn]
  exact ⟨_, if_neg (of_decide_eq_true hne)⟩

theorem continuation_of_not_goesOn {response : SyncResponse} (h : response.goesOn = false) (request : SyncRequest) :
    continuation response request = [] := by
  unfold continuation
  split
  · rfl
  · rename_i n hn
    rw [SyncResponse.goesOn, hn] at h
    exact if_pos (not_not.1 (of_decide_eq_false h))

/-- the requests open to a peer, in order -/
def NodeEngine.openRequests (e : NodeEngine) (peer : PeerId) : List SyncRequest :=
  (e.pendingRequests.filter fun request => decide (request.peer = peer)).map PendingRequest.range

/-! ## A response -/

/-- importing makes no request and answers none -/
structure NoPaging (e e' : NodeEngine) (acts : List NodeAction) : Prop where
  requests : e'.pendingRequests = e.pendingRequests
  none : ∀ a ∈ acts, a.isRequest = false

theorem importFrame_noPaging : NodeEngine.ImportFrame NoPaging where
  refl _ := ⟨rfl, fun _ ha => nomatch ha⟩
  trans h h' := by
    refine ⟨h'.requests.trans h.requests, fun a ha => ?_⟩
    rcases List.mem_append.1 ha with ha | ha
    · exact h.none a ha
    · exact h'.none a ha
  report _ _ := ⟨rfl, fun a ha => by rw [List.mem_singleton.1 ha]; rfl⟩
  add _ _ _ _ := by
    refine ⟨rfl, fun a ha => ?_⟩
    rcases List.mem_cons.1 ha with rfl | ha
    · rfl
    · rw [List.mem_singleton.1 ha]
      rfl
  take _ _ := ⟨rfl, fun _ ha => nomatch ha⟩
  park _ _ _ := ⟨rfl, fun a ha => by rw [List.mem_singleton.1 ha]; rfl⟩

/-- what `continue_request` adds for the requests of one peer -/
theorem continueRequests_ranges {peer : PeerId} {requests : List PendingRequest} (hown : ∀ r ∈ requests, r.peer = peer)
    (response : SyncResponse) {n : UInt64} (hn : response.nextHeight = some n) (e : NodeEngine) :
    (∃ added, (NodeEngine.continueRequests n requests e).1.pendingRequests = e.pendingRequests ++ added ∧
      (∀ r ∈ added, r.peer = peer) ∧
      added.map PendingRequest.range = (requests.map PendingRequest.range).flatMap (continuation response)) ∧
    (NodeEngine.continueRequests n requests e).2.filterMap (NodeAction.requestTo peer) =
      (requests.map PendingRequest.range).flatMap (continuation response) := by
  induction requests generalizing e with
  | nil => exact ⟨⟨[], (List.append_nil _).symm, fun _ hr => (nomatch hr), rfl⟩, rfl⟩
  | cons r requests ih =>
    rw [NodeEngine.continueRequests, List.map_cons, List.flatMap_cons, continuation, hn]
    have hr := hown r List.mem_cons_self
    by_cases hzero : n = 0
    · have hskip : e.continueRequest r n = (e, []) := by rw [NodeEngine.continueRequest, if_pos hzero]
      rw [hskip]
      dsimp only
      rw [if_pos hzero]
      exact ih (fun x hx => hown x (List.mem_cons_of_mem _ hx)) e
    · have hnext : e.continueRequest r n = ({ e with pendingRequests := e.pendingRequests ++
            [⟨r.peer, n, nextToHeight r.range n, saturatingAdd e.currentTimeMs requestTimeoutMs⟩] },
          [.requestBlocks r.peer n (nextToHeight r.range n)]) := by
        rw [NodeEngine.continueRequest, if_neg hzero]
        rfl
      obtain ⟨⟨added, hadded, hpeer, hranges⟩, hacts⟩ := ih (fun x hx => hown x (List.mem_cons_of_mem _ hx))
        (e.continueRequest r n).1
      dsimp only
      rw [if_neg hzero]
      rw [hnext] at hadded hacts ⊢
      refine ⟨⟨⟨r.peer, n, nextToHeight r.range n, saturatingAdd e.currentTimeMs requestTimeoutMs⟩ :: added, ?_, ?_, ?_⟩,
        ?_⟩
      · rw [hadded, List.append_assoc]
        rfl
      · intro x hx
        rcases List.mem_cons.1 hx with rfl | hx
        · exact hr
        · exact hpeer x hx
      · rw [List.map_cons, hranges]
        rfl
      · rw [List.filterMap_append, hacts, hr, List.filterMap_cons_some (NodeAction.requestTo_self peer n _)]
        rfl

/-- a response answers all open requests of its peer: what is open afterwards, and what was asked, are their
continuations -/
theorem answer_requests {e e' : NodeEngine} {peer : PeerId} {frame : Frame} {response : SyncResponse}
    {acts : List NodeAction} (hframe : NetworkMessage.fromBytes frame = .ok (.syncResponse response))
    (hstep : e.step ck (.frameReceived peer frame) = .ok (e', acts)) :
    e'.openRequests peer = (e.openRequests peer).flatMap (continuation response) ∧
      acts.filterMap (NodeAction.requestTo peer) = (e.openRequests peer).flatMap (continuation response) := by
  obtain ⟨e₁, acts₁, hhandle, hreq, -, -, hlist⟩ := step_requests hstep peer
  rw [NodeEngine.openRequests, hreq, hlist]
  simp only [NodeEngine.handle, hframe, NodeEngine.handleMessage, NodeEngine.handleSyncResponse] at hhandle
  obtain ⟨⟨e₂, acts₂⟩, hingest, hhandle⟩ := bind_ok hhandle
  have himport := importFrame_noPaging.ingestBlocks _ hingest
  obtain ⟨-, hnil⟩ := no_requests himport.none peer
  have hother : (e₂.pendingRequests.filter fun r => decide (r.peer = peer)) = [] := by
    rw [himport.requests, List.filter_filter, List.filter_eq_nil_iff]
    intro r _
    simp
  have hack (l : List NodeAction) : (if l.isEmpty then [.frameReceived peer] else l).filterMap
      (NodeAction.requestTo peer) = l.filterMap (NodeAction.requestTo peer) := (acknowledge_requests peer l).2
  cases hn : response.nextHeight with
  | none =>
    rw [hn] at hhandle
    obtain ⟨rfl, rfl⟩ := Prod.mk.inj (Except.ok.inj hhandle)
    have hnone : ∀ request, continuation response request = [] := fun request => by rw [continuation, hn]
    rw [hother, hack, hnil, List.flatMap_eq_nil_iff.2 fun request _ => hnone request]
    exact ⟨rfl, rfl⟩
  | some n =>
    rw [hn] at hhandle
    obtain ⟨rfl, rfl⟩ := Prod.mk.inj (Except.ok.inj hhandle)
    have hown : ∀ r ∈ e.pendingRequests.filter (fun r => decide (r.peer = peer)), r.peer = peer := fun r hr =>
      of_decide_eq_true (List.mem_filter.1 hr).2
    obtain ⟨⟨added, hadded, hpeer, hranges⟩, hacts⟩ := continueRequests_ranges hown response hn e₂
    constructor
    · rw [hadded, List.filter_append, hother, List.nil_append, List.filter_eq_self.2 fun r hr => decide_eq_true (hpeer r hr)]
      exact hranges
    · rw [hack, List.filterMap_append, hnil, List.nil_append]
      exact hacts

/-- a request that is the only one open to the peer goes on at the height of its own response -/
theorem answer_alone {e e' : NodeEngine} {peer : PeerId} {request : SyncRequest} {frame : Frame} {response : SyncResponse}
    {acts : List NodeAction} (hopen : e.openRequests peer = [request])
    (hframe : NetworkMessage.fromBytes frame = .ok (.syncResponse response))
    (hstep : e.step ck (.frameReceived peer frame) = .ok (e', acts)) :
    acts.filterMap (NodeAction.requestTo peer) = continuation response request := by
  rw [(answer_requests hframe hstep).2, hopen, List.flatMap_singleton]

/-- **Concurrent requests to one peer.** Two requests are open to a peer and their responses arrive, in either order: what
the engine asks for after each is the continuation of that request exactly if neither response goes on. -/
theorem concurrent_requests_independent {e e₁ e₂ : NodeEngine} {peer : PeerId} {first second : SyncRequest}
    (hopen : e.openRequests peer = [first, second] ∨ e.openRequests peer = [second, first])
    {frame₁ frame₂ : Frame} {response₁ response₂ : SyncResponse}
    (hframe₁ : NetworkMessage.fromBytes frame₁ = .ok (.syncResponse response₁))
    (hframe₂ : NetworkMessage.fromBytes frame₂ = .ok (.syncResponse response₂)) {acts₁ acts₂ : List NodeAction}
    (hstep₁ : e.step ck (.frameReceived peer frame₁) = .ok (e₁, acts₁))
    (hstep₂ : e₁.step ck (.frameReceived peer frame₂) = .ok (e₂, acts₂)) :
    (acts₁.filterMap (NodeAction.requestTo peer) = continuation response₁ first ∧
        acts₂.filterMap (NodeAction.requestTo peer) = continuation response₂ second) ↔
      response₁.goesOn = false ∧ response₂.goesOn = false := by
  obtain ⟨hopen₁, hacts₁⟩ := answer_requests hframe₁ hstep₁
  obtain ⟨-, hacts₂⟩ := answer_requests hframe₂ hstep₂
  have hlength : (e.openRequests peer).length = 2 := by
    rcases hopen with h | h
    · rw [h]; rfl
    · rw [h]; rfl
  rw [hacts₁, hacts₂, hopen₁]
  cases hgoes₁ : response₁.goesOn with
  | true =>
    -- both requests go on, one too many
    obtain ⟨next, hnext⟩ := continuation_of_goesOn hgoes₁ first
    have htwo : ((e.openRequests peer).flatMap (continuation response₁)).length = 2 := by
      have hone : ∀ request, (continuation response₁ request).length = 1 := fun request => by
        obtain ⟨next, hnext⟩ := continuation_of_goesOn hgoes₁ request
        rw [hnext]
        rfl
      rw [List.length_flatMap, List.map_congr_left fun request _ => hone request, List.map_const', List.sum_replicate,
        hlength]
      rfl
    constructor
    · rintro ⟨h, -⟩
      rw [h, hnext] at htwo
      exact nomatch htwo
    · exact fun h => nomatch h.1
  | false =>
    have hnone : (e.openRequests peer).flatMap (continuation response₁) = [] :=
      List.flatMap_eq_nil_iff.2 fun request _ => continuation_of_not_goesOn hgoes₁ request
    rw [hnone, continuation_of_not_goesOn hgoes₁]
    cases hgoes₂ : response₂.goesOn with
    | true =>
      -- the second request is closed and does not go on
      obtain ⟨next, hnext⟩ := continuation_of_goesOn hgoes₂ second
      constructor
      · rintro ⟨-, h⟩
        rw [hnext] at h
        exact nomatch h
      · exact fun h => nomatch h.2
    | false =>
      rw [continuation_of_not_goesOn hgoes₂]
      exact ⟨fun _ => ⟨rfl, rfl⟩, fun _ => ⟨rfl, rfl⟩⟩

end Paging

section Witness

open Sample

/-- the steps for two responses -/
theorem answered {e : NodeEngine} {a b : SyncResponse} (h : (do
      let (e, _) ← e.step .release (.frameReceived peer (NetworkMessage.syncResponse a).toBytes)
      e.step .release (.frameReceived peer (NetworkMessage.syncResponse b).toBytes)).toOption.isSome = true) :
    ∃ e₁ acts₁ e₂ acts₂,
      e.step .release (.frameReceived peer (NetworkMessage.syncResponse a).toBytes) = .ok (e₁, acts₁) ∧
      e₁.step .release (.frameReceived peer (NetworkMessage.syncResponse b).toBytes) = .ok (e₂, acts₂) := by
  obtain ⟨⟨e₁, acts₁⟩, hstep₁, hrest⟩ := bind_ok (eq_ok_get h)
  exact ⟨e₁, acts₁, _, _, hstep₁, hrest⟩

/-- a new client that was asked to import two ranges from the peer -/
def asking (first second : SyncRequest) : Except Fault NodeEngine := do
  let (e, _) ← (NodeEngine.new .new).step .release (.importRequested peer first.fromHeight first.toHeight)
  let (e, _) ← e.step .release (.importRequested peer second.fromHeight second.toHeight)
  pure e

/-- the responses of a server that begins at `m₂` -/
def below : SyncResponse := ⟨[], false, some m₂.height⟩
def served₂ : SyncResponse := ⟨[m₂], false, none⟩

theorem below_frame : NetworkMessage.fromBytes (NetworkMessage.syncResponse below).toBytes = .ok (.syncResponse below) := by
  have hround := fromBytes_toBytes_message (m := .syncResponse below) ⟨by decide, fun _ hb => nomatch hb⟩ []
  rwa [List.append_nil] at hround

theorem served₂_frame :
    NetworkMessage.fromBytes (NetworkMessage.syncResponse served₂).toBytes = .ok (.syncResponse served₂) := by
  have hround := fromBytes_toBytes_message (m := .syncResponse served₂) ⟨by decide, fun b hb => by rw [List.mem_singleton.1 hb]; exact emptyChild_sized _ _ _⟩ []
  rwa [List.append_nil] at hround

def atHead : NodeEngine := (asking ⟨2, 2⟩ ⟨2, 3⟩).toOption.get (by decide +kernel)

/-- both requests end at the head of the server: there is nothing to go on with -/
theorem concurrent_requests_independent_atHead : ∃ e₁ acts₁ e₂ acts₂,
    atHead.step .release (.frameReceived peer (NetworkMessage.syncResponse served₂).toBytes) = .ok (e₁, acts₁) ∧
    e₁.step .release (.frameReceived peer (NetworkMessage.syncResponse served₂).toBytes) = .ok (e₂, acts₂) ∧
    acts₁.filterMap (NodeAction.requestTo peer) = continuation served₂ ⟨2, 2⟩ ∧
    acts₂.filterMap (NodeAction.requestTo peer) = continuation served₂ ⟨2, 3⟩ := by
  obtain ⟨e₁, acts₁, e₂, acts₂, hstep₁, hstep₂⟩ := answered (e := atHead) (a := served₂) (b := served₂)
    (by decide +kernel)
  exact ⟨e₁, acts₁, e₂, acts₂, hstep₁, hstep₂, (concurrent_requests_independent (.inl (by decide +kernel)) served₂_frame
    served₂_frame hstep₁ hstep₂).2 ⟨rfl, rfl⟩⟩

def belowHead : NodeEngine := (asking ⟨1, 1⟩ ⟨2, 2⟩).toOption.get (by decide +kernel)

/-- the response for block 1, which the server does not have, takes on the request for block 2 as well -/
theorem continued_before_answered : ∃ e e₁ acts₁ e₂ acts₂ response₁ response₂,
    asking ⟨1, 1⟩ ⟨2, 2⟩ = .ok e ∧ e.openRequests peer = [⟨1, 1⟩, ⟨2, 2⟩] ∧
    lateServer.syncResponse ⟨1, 1⟩ = .ok response₁ ∧ lateServer.syncResponse ⟨2, 2⟩ = .ok response₂ ∧
    e.step .release (.frameReceived peer (NetworkMessage.syncResponse response₁).toBytes) = .ok (e₁, acts₁) ∧
    e₁.step .release (.frameReceived peer (NetworkMessage.syncResponse response₂).toBytes) = .ok (e₂, acts₂) ∧
    ¬ (acts₁.filterMap (NodeAction.requestTo peer) = continuation response₁ ⟨1, 1⟩ ∧
      acts₂.filterMap (NodeAction.requestTo peer) = continuation response₂ ⟨2, 2⟩) := by
  have hopen : belowHead.openRequests peer = [⟨1, 1⟩, ⟨2, 2⟩] := by decide +kernel
  obtain ⟨e₁, acts₁, e₂, acts₂, hstep₁, hstep₂⟩ := answered (e := belowHead) (a := below) (b := served₂)
    (by decide +kernel)
  refine ⟨belowHead, e₁, acts₁, e₂, acts₂, below, served₂, eq_ok_get _, hopen, lateServer_below rfl (by decide),
    lateServer_first rfl (by decide +kernel), hstep₁, hstep₂, fun h => ?_⟩
  have hasked := (answer_requests below_frame hstep₁).2.symm.trans h.1
  rw [hopen] at hasked
  exact absurd hasked (by decide)

end Witness

end RustProof
