/-
Whether sync ends.

The exchange with one server as a run of two kinds of steps, in any order: the server answers the oldest request, the
client's storage answers the oldest load. A client goes up by `next_height` and down by `request_parent_block`. Going up
alone is bounded: `next_height` is above the request it answers and not above the server's head, so the requests on the
wire, weighed by what is left above them, pay for all that follow (`Budget.step`). Going down starts over, and nothing in
the code ends it: a server whose history begins above the missing parent answers with the first block it has, the client
parks that block again and asks for its parent again (`Loop.forever`).

Results: `quiesces_iff_missing_bounded`, `parked_again_forever`.
-/
import RustProof.Lib.Weight
import RustProof.Sync.CatchUp

namespace RustProof

section Quiesce

variable [Crypto]

/-! ## The exchange as a run -/

def NodeAction.isRequest : NodeAction → Bool
  | .requestBlocks _ _ _ => true
  | _ => false

/-- a client, its storage and a server; requests and storage replies on their way, oldest first. `issued` counts the
requests, `missing` the replies without a snapshot for a hash under which blocks are parked. -/
structure Session where
  client : NodeEngine
  server : NodeEngine
  wire : List SyncRequest
  store : Hash → Option (List UInt8)
  replies : List (Hash × Option (List UInt8))
  issued : ℕ
  missing : ℕ

namespace Session

/-- the storage executes an action; a load is answered with what is stored then -/
def execute (storage : (Hash → Option (List UInt8)) × List (Hash × Option (List UInt8))) :
    NodeAction → (Hash → Option (List UInt8)) × List (Hash × Option (List UInt8))
  | .persistSnapshot h bytes => (Function.update storage.1 h (some bytes), storage.2)
  | .loadSnapshot h => (storage.1, storage.2 ++ [(h, storage.1 h)])
  | _ => storage

/-- the runtime carries out the actions of the client -/
def emit (serverPeer : PeerId) (acts : List NodeAction) (x : Session) : Session :=
  let storage := acts.foldl execute (x.store, x.replies)
  { x with
    wire := x.wire ++ acts.filterMap (NodeAction.requestTo serverPeer)
    store := storage.1
    replies := storage.2
    issued := x.issued + acts.countP NodeAction.isRequest }

/-- `PeerConnected` at the client -/
def start (ck : OverflowChecks) (serverPeer : PeerId) (client server : NodeEngine) (store : Hash → Option (List UInt8)) :
    Except Fault Session := do
  let (client, acts) ← client.step ck (.peerConnected serverPeer)
  pure (emit serverPeer acts ⟨client, server, [], store, [], 0, 0⟩)

/-- the storage has no snapshot of the parent of blocks that are parked -/
def Missing (client : NodeEngine) (h : Hash) (bytes : Option (List UInt8)) : Prop :=
  bytes = none ∧ client.pendingBlocks.getD h [] ≠ []

instance (client : NodeEngine) (h : Hash) (bytes : Option (List UInt8)) : Decidable (Missing client h bytes) :=
  inferInstanceAs (Decidable (bytes = none ∧ ¬ client.pendingBlocks.getD h [] = []))

inductive Step (ck : OverflowChecks) (limits : PeerId → Option UInt16) (clientPeer serverPeer : PeerId) :
    Session → Session → Prop
  /-- the oldest request is clamped and answered, the client takes the answer -/
  | answer {x : Session} {request : SyncRequest} {rest : List SyncRequest} {client server : NodeEngine} {frame : Frame}
      {answer acts : List NodeAction} (wire : x.wire = request :: rest)
      (serve : x.server.step ck (.frameReceived clientPeer
        (NetworkMessage.syncRequest (clampSyncRequest limits serverPeer request)).toBytes) = .ok (server, answer))
      (sent : answer.filterMap (NodeAction.frameTo clientPeer) = [frame])
      (take : x.client.step ck (.frameReceived serverPeer frame) = .ok (client, acts)) :
      Step ck limits clientPeer serverPeer x
        (emit serverPeer acts { x with client := client, server := server, wire := rest })
  /-- the client takes the oldest storage reply -/
  | reply {x : Session} {h : Hash} {bytes : Option (List UInt8)} {rest : List (Hash × Option (List UInt8))}
      {client : NodeEngine} {acts : List NodeAction} (replies : x.replies = (h, bytes) :: rest)
      (take : x.client.step ck (.storageLoaded h bytes) = .ok (client, acts)) :
      Step ck limits clientPeer serverPeer x
        (emit serverPeer acts { x with
          client := client
          replies := rest
          missing := x.missing + if Missing x.client h bytes then 1 else 0 })

end Session

/-- a run of the exchange; it may stop -/
structure SyncRun (ck : OverflowChecks) (limits : PeerId → Option UInt16) (clientPeer serverPeer : PeerId)
    (client server : NodeEngine) (store : Hash → Option (List UInt8)) (x : ℕ → Session) : Prop where
  start : Session.start ck serverPeer client server store = .ok (x 0)
  step : ∀ n, Session.Step ck limits clientPeer serverPeer (x n) (x (n + 1)) ∨ x (n + 1) = x n

/-! ## What the client asks for -/

section Client

variable {ck : OverflowChecks}

/-- the open requests of the client are those it began with, and none was made -/
def Frozen (requests : List PendingRequest) (e : NodeEngine) (log : List NodeAction) : Prop :=
  e.pendingRequests = requests ∧ Parked (fun _ => True) e ∧ ∀ a ∈ log, a.isRequest = false

theorem Frozen.append {requests : List PendingRequest} {e : NodeEngine} {log : List NodeAction}
    (h : Frozen requests e log) {acts : List NodeAction} (hacts : ∀ a ∈ acts, a.isRequest = false) :
    Frozen requests e (log ++ acts) := by
  refine ⟨h.1, h.2.1, fun a ha => ?_⟩
  rcases List.mem_append.1 ha with ha | ha
  · exact h.2.2 a ha
  · exact hacts a ha

/-- importing blocks makes no request -/
theorem frozenRule (ck : OverflowChecks) (requests : List PendingRequest) :
    NodeEngine.ImportRule ck (fun _ _ => True) (fun _ => True) (fun _ _ => True) (fun _ => True)
      (fun _ => Frozen requests) (fun _ _ => Frozen requests) where
  note hI := hI.append (by simp [NodeAction.isRequest])
  report hI := hI.append (by simp [NodeAction.isRequest])
  park := fun {_ e _ peer b} hI _ _ =>
    Frozen.append (e := e.park peer b) ⟨hI.1, hI.2.1.park peer trivial, hI.2.2⟩ (by simp [NodeAction.isRequest])
  direct hI _ _ := hI
  head _ := trivial
  skip hI _ := hI
  take hI hp := ⟨⟨hI.1, hI.2.1.take _, hI.2.2⟩, hI.2.1 _ _ hp⟩
  add hI _ _ _ _ :=
    have hadd := Frozen.append hI (by simp [NodeAction.isRequest])
    ⟨trivial, ⟨hadd.1, hadd.2.1, hadd.2.2⟩, fun _ => ⟨hadd.1, hadd.2.1, hadd.2.2⟩⟩
  refuse hI _ _ _ := Frozen.append ⟨hI.1, hI.2.1, hI.2.2⟩ (by simp [NodeAction.isRequest])
  addFault _ _ _ _ := trivial

theorem ingestBlocks_frozen {peer : PeerId} {bs : List Block} {e e' : NodeEngine} {acts : List NodeAction}
    (hp : Parked (fun _ => True) e) (h : NodeEngine.ingestBlocks ck peer bs e = .ok (e', acts)) :
    Frozen e.pendingRequests e' acts := by
  have hsafe := (frozenRule ck e.pendingRequests).ingestBlocks (l := []) peer bs e []
    ⟨rfl, hp, fun a ha => nomatch ha⟩ (fun _ _ => trivial) (NodeEngine.ingestAllMeet_of_forall (fun _ _ => trivial) _ _ _)
  rw [h] at hsafe
  exact hsafe

theorem importParkedBlocks_frozen {e e' : NodeEngine} {h : Hash} {s : State} {acts : List NodeAction}
    (hp : Parked (fun _ => True) e) (himport : e.importParkedBlocks ck h s = .ok (e', acts)) :
    Frozen e.pendingRequests e' acts := by
  have hfrozen : Frozen e.pendingRequests e [] := ⟨rfl, hp, fun a ha => nomatch ha⟩
  have hsafe := (frozenRule ck e.pendingRequests).importParkedBlocks (l := []) (h := h) (s := s) hfrozen trivial
    (NodeEngine.parkedMeets_of_forall (fun _ _ => trivial) _ _ _ _)
  rw [himport] at hsafe
  exact hsafe

/-- the continuations of open requests -/
theorem continueRequests_eq {n : UInt64} (hn : n ≠ 0) (requests : List PendingRequest) (e : NodeEngine) :
    NodeEngine.continueRequests n requests e =
      ({ e with pendingRequests := e.pendingRequests ++ requests.map fun r =>
          ⟨r.peer, n, nextToHeight ⟨r.fromHeight, r.toHeight⟩ n, saturatingAdd e.currentTimeMs requestTimeoutMs⟩ },
        requests.map fun r => .requestBlocks r.peer n (nextToHeight ⟨r.fromHeight, r.toHeight⟩ n)) := by
  induction requests generalizing e with
  | nil => simp [NodeEngine.continueRequests]
  | cons r requests ih =>
    rw [NodeEngine.continueRequests]
    simp only [NodeEngine.continueRequest, if_neg hn, NodeEngine.queueBlockRequest, ih, List.map_cons, List.append_assoc,
      List.cons_append, List.nil_append, nextToHeight]

/-- how many requests to the peer are open -/
def openTo (peer : PeerId) (e : NodeEngine) : ℕ := e.pendingRequests.countP fun r => decide (r.peer = peer)

/-- actions that make no request -/
theorem no_requests {acts : List NodeAction} (h : ∀ a ∈ acts, a.isRequest = false) (peer : PeerId) :
    acts.countP NodeAction.isRequest = 0 ∧ acts.filterMap (NodeAction.requestTo peer) = [] := by
  refine ⟨List.countP_eq_zero.2 fun a ha => by rw [h a ha]; exact Bool.false_ne_true, List.filterMap_eq_nil_iff.2 fun a ha => ?_⟩
  have hnot := h a ha
  unfold NodeAction.isRequest at hnot
  unfold NodeAction.requestTo
  split
  · cases hnot
  · rfl

/-- the wake action of a step changes no request -/
theorem step_requests {e e' : NodeEngine} {input : NodeInput} {acts : List NodeAction}
    (h : e.step ck input = .ok (e', acts)) (peer : PeerId) :
    ∃ e₁ acts₁, e.handle ck input = .ok (e₁, acts₁) ∧ e'.pendingRequests = e₁.pendingRequests ∧
      e'.pendingBlocks = e₁.pendingBlocks ∧
      acts.countP NodeAction.isRequest = acts₁.countP NodeAction.isRequest ∧
      acts.filterMap (NodeAction.requestTo peer) = acts₁.filterMap (NodeAction.requestTo peer) := by
  cases hh : e.handle ck input with
  | error f =>
    unfold NodeEngine.step at h
    rw [hh] at h
    cases h
  | ok r =>
    obtain ⟨wake, hstep, hwake⟩ := step_of_handle_ok hh
    rw [hstep] at h
    obtain ⟨rfl, rfl⟩ := Prod.mk.inj (Except.ok.inj h)
    have hnone : ∀ a ∈ wake, a.isRequest = false := by
      rcases hwake with rfl | rfl | ⟨t, rfl⟩ <;> simp [NodeAction.isRequest]
    obtain ⟨hcount, hlist⟩ := no_requests hnone peer
    refine ⟨r.1, r.2, rfl, rfl, rfl, ?_, ?_⟩
    · rw [List.countP_append, hcount, Nat.add_zero]
    · rw [List.filterMap_append, hlist, List.append_nil]

/-- the height a request begins at -/
def SyncRequest.level (request : SyncRequest) : ℕ := request.fromHeight.toNat

/-- the requests of continuations, all to one peer -/
theorem continuations {peer : PeerId} {requests : List PendingRequest} (h : ∀ r ∈ requests, r.peer = peer) (n : UInt64)
    (f : PendingRequest → UInt64) :
    (requests.map fun r => NodeAction.requestBlocks r.peer n (f r)).countP NodeAction.isRequest = requests.length ∧
      ((requests.map fun r => NodeAction.requestBlocks r.peer n (f r)).filterMap (NodeAction.requestTo peer)).map
        SyncRequest.level = List.replicate requests.length n.toNat := by
  induction requests with
  | nil => exact ⟨rfl, rfl⟩
  | cons r requests ih =>
    obtain ⟨hcount, hlist⟩ := ih fun x hx => h x (List.mem_cons_of_mem _ hx)
    have hr := h r List.mem_cons_self
    constructor
    · rw [List.map_cons, List.countP_cons_of_pos rfl, hcount, List.length_cons]
    · rw [List.map_cons, hr, List.filterMap_cons_some (NodeAction.requestTo_self peer n (f r)), List.map_cons, hlist,
        List.length_cons, List.replicate_succ]
      rfl

/-- an answer without any action is acknowledged, which is no request -/
theorem acknowledge_requests (peer : PeerId) (acts : List NodeAction) :
    (if acts.isEmpty then [.frameReceived peer] else acts).countP NodeAction.isRequest =
        acts.countP NodeAction.isRequest ∧
      (if acts.isEmpty then [.frameReceived peer] else acts).filterMap (NodeAction.requestTo peer) =
        acts.filterMap (NodeAction.requestTo peer) := by
  cases acts with
  | nil => exact ⟨rfl, rfl⟩
  | cons a acts => exact ⟨rfl, rfl⟩

/-- the client takes an answer: without `next_height` no request stays open, otherwise every open one goes on there -/
theorem client_answer {e e' : NodeEngine} {acts : List NodeAction} {peer : PeerId} {response : SyncResponse}
    (hp : Parked (fun _ => True) e) (hsized : (NetworkMessage.syncResponse response).Sized)
    (hstep : e.step ck (.frameReceived peer (NetworkMessage.syncResponse response).toBytes) = .ok (e', acts)) :
    Parked (fun _ => True) e' ∧
      (response.nextHeight = none → openTo peer e' = 0 ∧ acts.countP NodeAction.isRequest = 0 ∧
        acts.filterMap (NodeAction.requestTo peer) = []) ∧
      ∀ n, response.nextHeight = some n → n ≠ 0 → openTo peer e' = openTo peer e ∧
        acts.countP NodeAction.isRequest = openTo peer e ∧
        (acts.filterMap (NodeAction.requestTo peer)).map SyncRequest.level = List.replicate (openTo peer e) n.toNat := by
  have hbytes : NetworkMessage.fromBytes (NetworkMessage.syncResponse response).toBytes = .ok (.syncResponse response) := by
    have hround := fromBytes_toBytes_message hsized []
    rwa [List.append_nil] at hround
  obtain ⟨e₁, acts₁, hhandle, hreq, hpark, hcount, hlist⟩ := step_requests hstep peer
  rw [hcount, hlist]
  unfold openTo
  rw [Parked, hreq, hpark]
  simp only [NodeEngine.handle, hbytes, NodeEngine.handleMessage, NodeEngine.handleSyncResponse] at hhandle
  have hown : ∀ r ∈ e.pendingRequests.filter (fun r => decide (r.peer = peer)), r.peer = peer := fun r hr =>
    of_decide_eq_true (List.mem_filter.1 hr).2
  have hnone : (e.pendingRequests.filter fun r => decide (r.peer ≠ peer)).countP (fun r => decide (r.peer = peer)) = 0 := by
    refine List.countP_eq_zero.2 fun r hr => ?_
    have hne : r.peer ≠ peer := of_decide_eq_true (List.mem_filter.1 hr).2
    simp [hne]
  cases hres : NodeEngine.ingestBlocks ck peer response.blocks
      { e with pendingRequests := e.pendingRequests.filter fun r => decide (r.peer ≠ peer) } with
  | error f =>
    rw [hres] at hhandle
    cases hhandle
  | ok r =>
    obtain ⟨hpending, hparked, hquiet⟩ := ingestBlocks_frozen (by exact hp) hres
    obtain ⟨hzero, hnil⟩ := no_requests hquiet peer
    rw [hres] at hhandle
    simp only [bind, Except.bind, pure, Except.pure] at hhandle
    cases hn : response.nextHeight with
    | none =>
      rw [hn] at hhandle
      obtain ⟨rfl, rfl⟩ := Prod.mk.inj (Except.ok.inj hhandle)
      obtain ⟨hackcount, hacklist⟩ := acknowledge_requests peer r.2
      refine ⟨hparked, fun _ => ⟨?_, hackcount.trans hzero, hacklist.trans hnil⟩, fun n h => by cases h⟩
      rw [hpending]
      exact hnone
    | some n =>
      refine ⟨?_, (fun h => by cases h), fun m hm hne => ?_⟩
      · rw [hn] at hhandle
        obtain ⟨rfl, -⟩ := Prod.mk.inj (Except.ok.inj hhandle)
        have hsame := (NodeEngine.continueRequests_quiet n (e.pendingRequests.filter fun r => decide (r.peer = peer)) r.1).1
        exact hparked.of_same hsame
      · cases hm
        rw [hn] at hhandle
        simp only [continueRequests_eq hne] at hhandle
        obtain ⟨rfl, rfl⟩ := Prod.mk.inj (Except.ok.inj hhandle)
        obtain ⟨hackcount, hacklist⟩ := acknowledge_requests peer (r.2 ++
          (e.pendingRequests.filter fun r => decide (r.peer = peer)).map fun r =>
            .requestBlocks r.peer n (nextToHeight ⟨r.fromHeight, r.toHeight⟩ n))
        obtain ⟨hcont, hcontlist⟩ := continuations hown n fun r => nextToHeight ⟨r.fromHeight, r.toHeight⟩ n
        have hlen : (e.pendingRequests.filter fun r => decide (r.peer = peer)).length =
            e.pendingRequests.countP fun r => decide (r.peer = peer) := List.countP_eq_length_filter.symm
        refine ⟨?_, ?_, ?_⟩
        · rw [hpending, List.countP_append, hnone, Nat.zero_add, List.countP_map, List.countP_eq_length.2, hlen]
          intro r hr
          simpa using hown r hr
        · rw [hackcount, List.countP_append, hzero, Nat.zero_add, hcont, hlen]
        · rw [hacklist, List.filterMap_append, hnil, List.nil_append, hcontlist, hlen]

/-- the client takes a storage reply: only a missing parent makes it ask, once -/
theorem client_reply {e e' : NodeEngine} {acts : List NodeAction} {h : Hash} {bytes : Option (List UInt8)} (peer : PeerId)
    (hp : Parked (fun _ => True) e) (hstep : e.step ck (.storageLoaded h bytes) = .ok (e', acts)) :
    Parked (fun _ => True) e' ∧
      openTo peer e' ≤ openTo peer e + (if Session.Missing e h bytes then 1 else 0) ∧
      acts.countP NodeAction.isRequest = (if Session.Missing e h bytes then 1 else 0) ∧
      (acts.filterMap (NodeAction.requestTo peer)).length ≤ (if Session.Missing e h bytes then 1 else 0) := by
  obtain ⟨e₁, acts₁, hhandle, hreq, hpark, hcount, hlist⟩ := step_requests hstep peer
  rw [hcount, hlist]
  unfold openTo
  rw [Parked, hreq, hpark]
  simp only [NodeEngine.handle, NodeEngine.handleStorageLoaded] at hhandle
  -- all branches but one leave the requests alone
  have hquiet : ∀ {e₂ : NodeEngine} {acts₂ : List NodeAction}, Frozen e.pendingRequests e₂ acts₂ → e₁ = e₂ → acts₁ = acts₂ →
      ¬ Session.Missing e h bytes → Parked (fun _ => True) e₁ ∧
        (e₁.pendingRequests.countP fun r => decide (r.peer = peer)) ≤
          (e.pendingRequests.countP fun r => decide (r.peer = peer)) + (if Session.Missing e h bytes then 1 else 0) ∧
        acts₁.countP NodeAction.isRequest = (if Session.Missing e h bytes then 1 else 0) ∧
        (acts₁.filterMap (NodeAction.requestTo peer)).length ≤ (if Session.Missing e h bytes then 1 else 0) := by
    rintro e₂ acts₂ ⟨hfix, hparked, hno⟩ rfl rfl hnot
    obtain ⟨hzero, hnil⟩ := no_requests hno peer
    rw [if_neg hnot, hfix, hzero, hnil]
    exact ⟨hparked, le_rfl, rfl, le_rfl⟩
  have hsame : ∀ m, Frozen e.pendingRequests e [.reportEvent m] := fun m => ⟨rfl, hp, by simp [NodeAction.isRequest]⟩
  cases hparked : (e.pendingBlocks.get? h).bind List.head? with
  | none =>
    rw [hparked] at hhandle
    obtain ⟨rfl, rfl⟩ := Prod.mk.inj (Except.ok.inj hhandle)
    refine hquiet (hsame _) rfl rfl fun hmissing => hmissing.2 ?_
    unfold BTreeMap.getD
    cases hl : e.pendingBlocks.get? h with
    | none => rfl
    | some l =>
      rw [hl] at hparked
      exact List.head?_eq_none_iff.1 hparked
  | some parked =>
    rw [hparked] at hhandle
    cases bytes with
    | some b =>
      have hnot : ¬ Session.Missing e h (some b) := fun hmissing => by cases hmissing.1
      simp only at hhandle
      cases hs : State.fromBytes b with
      | error f => rw [hs] at hhandle; cases hhandle
      | ok r =>
        rw [hs] at hhandle
        cases r with
        | error err =>
          obtain ⟨rfl, rfl⟩ := Prod.mk.inj (Except.ok.inj hhandle)
          exact hquiet (hsame _) rfl rfl hnot
        | ok s => exact hquiet (importParkedBlocks_frozen hp hhandle) rfl rfl hnot
    | none =>
      have hmissing : Session.Missing e h none := by
        refine ⟨rfl, fun hnil => ?_⟩
        unfold BTreeMap.getD at hnil
        cases hl : e.pendingBlocks.get? h with
        | none => rw [hl] at hparked; cases hparked
        | some l =>
          rw [hl] at hnil hparked
          rw [show l = [] from hnil] at hparked
          cases hparked
      rw [if_pos hmissing]
      simp only [NodeEngine.requestParentBlock, NodeEngine.queueBlockRequest] at hhandle
      obtain ⟨rfl, rfl⟩ := Prod.mk.inj (Except.ok.inj hhandle)
      refine ⟨hp, ?_, rfl, ?_⟩
      · rw [List.countP_append]
        exact Nat.add_le_add_left List.countP_le_length _
      · exact (List.length_filterMap_le _ [NodeAction.requestBlocks parked.peer _ _])

end Client

/-! ## Going up is bounded -/

section Bound

variable {ck : OverflowChecks} {limits : PeerId → Option UInt16} {clientPeer serverPeer : PeerId}

/-- the tree of a server fits in memory -/
structure Addressable (bc : Blockchain) : Prop where
  sized : ∀ h b, bc.blockAt h = some b → b.Sized
  len : bc.chain.len + 1 < 2 ^ 64

/-- a server that takes a request answers it -/
theorem server_answers {e e' : NodeEngine} {request : SyncRequest} {answer : List NodeAction}
    (h : e.step ck (.frameReceived clientPeer (NetworkMessage.syncRequest request).toBytes) = .ok (e', answer)) :
    ∃ response, e.syncResponse request = .ok response ∧ e'.blockchain = e.blockchain ∧
      answer.filterMap (NodeAction.frameTo clientPeer) = [(NetworkMessage.syncResponse response).toBytes] := by
  cases hr : e.syncResponse request with
  | ok response =>
    obtain ⟨e₁, acts, hstep, hsame, hframe⟩ := server_step ck hr clientPeer
    rw [hstep] at h
    obtain ⟨rfl, rfl⟩ := Prod.mk.inj (Except.ok.inj h)
    exact ⟨response, rfl, hsame, hframe⟩
  | error f =>
    have hbytes : NetworkMessage.fromBytes (NetworkMessage.syncRequest request).toBytes = .ok (.syncRequest request) := by
      have hround := fromBytes_toBytes_message (m := .syncRequest request) trivial []
      rwa [List.append_nil] at hround
    simp only [NodeEngine.step, NodeEngine.handle, hbytes, NodeEngine.handleMessage, hr, bind, Except.bind] at h
    cases h

omit [Crypto] in
theorem clampSyncRequest_fromHeight (limits : PeerId → Option UInt16) (peer : PeerId) (request : SyncRequest) :
    (clampSyncRequest limits peer request).fromHeight = request.fromHeight := by
  unfold clampSyncRequest SyncRequest.clamp
  split
  · rfl
  · split_ifs <;> rfl

/-- what a step does to the requests: an answer ends them, or carries all of them up; a storage reply adds `d ≤ 1` of
them, `d = 1` if a parent is missing -/
inductive Effect (serverPeer : PeerId) (top : ℕ) (x x' : Session) : Prop
  | ends {request : SyncRequest} {rest : List SyncRequest} (wire : x.wire = request :: rest) (wire' : x'.wire = rest)
      (issued : x'.issued = x.issued) (missing : x'.missing = x.missing) (opened : openTo serverPeer x'.client = 0)
  | goesOn {request : SyncRequest} {rest more : List SyncRequest} {n : ℕ} (wire : x.wire = request :: rest)
      (wire' : x'.wire = rest ++ more)
      (levels : more.map SyncRequest.level = List.replicate (openTo serverPeer x.client) n)
      (above : request.level < n) (bounded : n ≤ top) (issued : x'.issued = x.issued + openTo serverPeer x.client)
      (missing : x'.missing = x.missing) (opened : openTo serverPeer x'.client = openTo serverPeer x.client)
  | reply {more : List SyncRequest} {d : ℕ} (wire' : x'.wire = x.wire ++ more) (length : more.length ≤ d) (le : d ≤ 1)
      (issued : x'.issued = x.issued + d) (missing : x'.missing = x.missing + d)
      (opened : openTo serverPeer x'.client ≤ openTo serverPeer x.client + d)

/-- parked blocks are under their parents' hashes, and the server is the one of the start -/
structure Sound (bc : Blockchain) (x : Session) : Prop where
  parked : Parked (fun _ => True) x.client
  server : x.server.blockchain = bc

theorem Session.Step.effect {bc : Blockchain} (top : ℕ) {x x' : Session} (hbc : Addressable bc)
    (htop : ∀ latest, bc.getLatestBlock = .ok latest → latest.height.toNat ≤ top) (hx : Sound bc x)
    (hstep : Session.Step ck limits clientPeer serverPeer x x') : Sound bc x' ∧ Effect serverPeer top x x' := by
  cases hstep with
  | @answer request rest client server frame answer acts hwire hserve hsent htake =>
    obtain ⟨response, hresponse, hsame, hframe⟩ := server_answers hserve
    rw [hsent] at hframe
    cases hframe
    obtain ⟨⟨hlen, hstored⟩, hnext⟩ := syncResponse_spec hresponse
    rw [hx.server] at hlen hstored hnext
    have hsized : (NetworkMessage.syncResponse response).Sized := by
      change response.blocks.length < 2 ^ 64 ∧ ∀ b ∈ response.blocks, b.Sized
      refine ⟨hlen.trans_lt hbc.len, fun b hb => ?_⟩
      obtain ⟨h, hh⟩ := hstored b hb
      exact hbc.sized h b hh
    obtain ⟨hparked, hlast, hmore⟩ := client_answer hx.parked hsized htake
    refine ⟨⟨hparked, hsame.trans hx.server⟩, ?_⟩
    cases hn : response.nextHeight with
    | none =>
      obtain ⟨hopen, hcount, hlist⟩ := hlast hn
      refine .ends hwire ?_ ?_ rfl hopen
      · simp only [Session.emit, hlist, List.append_nil]
      · simp only [Session.emit, hcount, Nat.add_zero]
    | some n =>
      obtain ⟨latest, hlatest, hlt, hle⟩ := hnext n hn
      rw [clampSyncRequest_fromHeight, UInt64.lt_iff_toNat_lt] at hlt
      have hne : n ≠ 0 := by
        rintro rfl
        exact absurd hlt (Nat.not_lt_zero _)
      obtain ⟨hopen, hcount, hlist⟩ := hmore n hn hne
      refine .goesOn hwire rfl hlist hlt ((UInt64.le_iff_toNat_le.1 hle).trans (htop latest hlatest)) ?_ rfl hopen
      simp only [Session.emit, hcount]
  | @reply h bytes rest client acts hreplies htake =>
    obtain ⟨hparked, hopen, hcount, hlist⟩ := client_reply serverPeer hx.parked htake
    refine ⟨⟨hparked, hx.server⟩, .reply rfl hlist (by split_ifs <;> omega) ?_ rfl hopen⟩
    simp only [Session.emit, hcount]

theorem Effect.missing_le_issued {top : ℕ} {x x' : Session} (h : Effect serverPeer top x x') (hx : x.missing ≤ x.issued) :
    x'.missing ≤ x'.issued := by
  rcases h with ⟨-, -, hissued, hmissing, -⟩ | ⟨-, -, -, -, -, hissued, hmissing, -⟩ | ⟨-, -, -, hissued, hmissing, -⟩ <;>
    omega

/-- with at most `most` missing parents, what was issued and what is to come stays within the cost of `most + 1` starts.
The client began with `p` requests to the server open. -/
structure Budget (serverPeer : PeerId) (p top most : ℕ) (x : Session) : Prop where
  opened : openTo serverPeer x.client ≤ p + 1 + x.missing
  cost : x.issued + weight (2 * (p + 1 + most)) top (x.wire.map SyncRequest.level) +
    (most - x.missing) * ((2 * (p + 1 + most)) ^ (top + 1) + 1) ≤ (most + 1) * ((2 * (p + 1 + most)) ^ (top + 1) + 1)

theorem Budget.step {p top most : ℕ} {x x' : Session} (hx : Budget serverPeer p top most x)
    (heffect : Effect serverPeer top x x') (hmost : x'.missing ≤ most) : Budget serverPeer p top most x' := by
  have hbase : 0 < 2 * (p + 1 + most) := by omega
  have hopened := hx.opened
  have hcost := hx.cost
  rcases heffect with ⟨hwire, hwire', hissued, hmissing, hopen⟩ |
    @⟨request, rest, more, n, hwire, hwire', hlevels, habove, hbounded, hissued, hmissing, hopen⟩ |
    @⟨more, d, hwire', hlength, hle, hissued, hmissing, hopen⟩
  · rw [hwire, List.map_cons, weight_cons] at hcost
    refine ⟨by omega, ?_⟩
    rw [hwire', hissued, hmissing]
    omega
  · have hk : 2 * openTo serverPeer x.client ≤ 2 * (p + 1 + most) := by omega
    have hpays := weight_pays hk hbase habove hbounded
    rw [hwire, List.map_cons, weight_cons] at hcost
    refine ⟨by omega, ?_⟩
    rw [hwire', hissued, hmissing, List.map_append, weight_append, hlevels]
    omega
  · -- a missing parent costs at most one start
    have hweight := weight_le hbase top (more.map SyncRequest.level)
    rw [List.length_map] at hweight
    refine ⟨by omega, ?_⟩
    rw [hwire', hissued, hmissing, List.map_append, weight_append]
    obtain rfl | rfl : d = 0 ∨ d = 1 := by omega
    · rw [Nat.le_zero.1 hlength, Nat.zero_mul] at hweight
      simp only [Nat.add_zero]
      omega
    · have hone := hweight.trans (Nat.mul_le_mul_right _ hlength)
      rw [show most - x.missing = (most - (x.missing + 1)) + 1 by omega, Nat.add_mul, Nat.one_mul] at hcost
      omega

theorem start_spec {client server : NodeEngine} {store : Hash → Option (List UInt8)} {x : Session}
    (h : Session.start ck serverPeer client server store = .ok x) :
    x.client.pendingBlocks = client.pendingBlocks ∧ x.server = server ∧ x.missing = 0 ∧ x.issued = 1 ∧
      x.wire.length = 1 ∧ openTo serverPeer x.client = openTo serverPeer client + 1 := by
  unfold Session.start at h
  cases hstep : client.step ck (.peerConnected serverPeer) with
  | error f => rw [hstep] at h; cases h
  | ok r =>
    rw [hstep] at h
    cases h
    obtain ⟨e₁, acts₁, hhandle, hreq, hpark, hcount, hlist⟩ := step_requests hstep serverPeer
    simp only [NodeEngine.handle, NodeEngine.connectPeer] at hhandle
    cases hl : client.blockchain.getLatestBlock with
    | error f => rw [hl] at hhandle; cases hhandle
    | ok latest =>
      rw [hl] at hhandle
      simp only [bind, Except.bind, pure, Except.pure, NodeEngine.queueBlockRequest] at hhandle
      obtain ⟨rfl, rfl⟩ := Prod.mk.inj (Except.ok.inj hhandle)
      refine ⟨hpark, rfl, rfl, ?_, ?_, ?_⟩
      · simp only [Session.emit, hcount, Nat.zero_add]
        rfl
      · simp only [Session.emit, hlist, List.nil_append]
        rw [List.filterMap_cons_none rfl, List.filterMap_cons_some (NodeAction.requestTo_self serverPeer _ _)]
        rfl
      · simp only [Session.emit, openTo, hreq, List.countP_append]
        simp

/-- the bound: `most + 1` starts, each the heights up to the server's head deep -/
def requestBound (p top most : ℕ) : ℕ := (most + 1) * ((2 * (p + 1 + most)) ^ (top + 1) + 1)

theorem Budget.start {client server : NodeEngine} {store : Hash → Option (List UInt8)} {x : Session} (top most : ℕ)
    (h : Session.start ck serverPeer client server store = .ok x) :
    Budget serverPeer (openTo serverPeer client) top most x := by
  obtain ⟨-, -, hmissing, hissued, hwire, hopen⟩ := start_spec h
  have hbase : 0 < 2 * (openTo serverPeer client + 1 + most) := by omega
  have hweight := weight_le hbase top (x.wire.map SyncRequest.level)
  rw [List.length_map, hwire, Nat.one_mul] at hweight
  refine ⟨by omega, ?_⟩
  rw [hissued, hmissing, Nat.sub_zero, Nat.add_mul, Nat.one_mul]
  omega

theorem SyncRun.sound {client server : NodeEngine} {store : Hash → Option (List UInt8)} {x : ℕ → Session}
    (hclient : Reachable ck client) (hserver : Addressable server.blockchain)
    (hrun : SyncRun ck limits clientPeer serverPeer client server store x) (n : ℕ) : Sound server.blockchain (x n) := by
  induction n with
  | zero =>
    obtain ⟨hpark, hsame, -⟩ := start_spec hrun.start
    refine ⟨?_, by rw [hsame]⟩
    rw [Parked, hpark]
    exact fun h l hl p hp => ⟨trivial, (hclient.parked h l hl p hp).2⟩
  | succ n ih =>
    rcases hrun.step n with hstep | hsame
    · exact (hstep.effect (2 ^ 64) hserver (fun b _ => b.height.toNat_lt.le) ih).1
    · rw [hsame]
      exact ih

/-- **Sync quiesces exactly when parents are not missing for ever.** In every run of the exchange with a server whose
chain does not change, the client issues finitely many requests if and only if the storage has no snapshot for a hash
with blocks parked under it finitely often; and if that happens at most `most` times, it issues no more than `requestBound`. -/
theorem quiesces_iff_missing_bounded (ck : OverflowChecks) (limits : PeerId → Option UInt16)
    (clientPeer serverPeer : PeerId) (client server : NodeEngine) (store : Hash → Option (List UInt8)) (x : ℕ → Session)
    (hclient : Reachable ck client) (hserver : Addressable server.blockchain)
    (hrun : SyncRun ck limits clientPeer serverPeer client server store x) :
    ((∃ bound, ∀ n, (x n).issued ≤ bound) ↔ ∃ most, ∀ n, (x n).missing ≤ most) ∧
      ∀ top most : ℕ, (∀ latest, server.blockchain.getLatestBlock = .ok latest → latest.height.toNat ≤ top) →
        (∀ n, (x n).missing ≤ most) → ∀ n, (x n).issued ≤ requestBound (openTo serverPeer client) top most := by
  have heffect : ∀ top : ℕ, (∀ latest, server.blockchain.getLatestBlock = .ok latest → latest.height.toNat ≤ top) →
      ∀ n, Effect serverPeer top (x n) (x (n + 1)) ∨ x (n + 1) = x n := fun top htop n =>
    (hrun.step n).imp_left fun hstep => (hstep.effect top hserver htop (hrun.sound hclient hserver n)).2
  have hbounded : ∀ top most : ℕ,
      (∀ latest, server.blockchain.getLatestBlock = .ok latest → latest.height.toNat ≤ top) →
      (∀ n, (x n).missing ≤ most) → ∀ n, (x n).issued ≤ requestBound (openTo serverPeer client) top most := by
    intro top most htop hmost n
    have hbudget : Budget serverPeer (openTo serverPeer client) top most (x n) := by
      induction n with
      | zero => exact Budget.start top most hrun.start
      | succ n ih =>
        rcases heffect top htop n with hstep | hsame
        · exact ih.step hstep (hmost (n + 1))
        · rw [hsame]
          exact ih
    have hcost := hbudget.cost
    unfold requestBound
    omega
  refine ⟨⟨?_, ?_⟩, hbounded⟩
  · rintro ⟨bound, hbound⟩
    have hle : ∀ n, (x n).missing ≤ (x n).issued := by
      intro n
      induction n with
      | zero =>
        obtain ⟨-, -, hmissing, -⟩ := start_spec hrun.start
        rw [hmissing]
        exact Nat.zero_le _
      | succ n ih =>
        rcases heffect (2 ^ 64) (fun b _ => b.height.toNat_lt.le) n with hstep | hsame
        · exact hstep.missing_le_issued ih
        · rw [hsame]
          exact ih
    exact ⟨bound, fun n => (hle n).trans (hbound n)⟩
  · rintro ⟨most, hmost⟩
    obtain ⟨top, htop⟩ : ∃ top : ℕ, ∀ latest, server.blockchain.getLatestBlock = .ok latest →
        latest.height.toNat ≤ top := by
      cases server.blockchain.getLatestBlock with
      | error f => exact ⟨0, fun b hb => by cases hb⟩
      | ok b => exact ⟨b.height.toNat, fun c hc => by cases hc; exact le_rfl⟩
    exact ⟨_, hbounded top most htop hmost⟩

end Bound

/-! ## Going down does not end

A server that has one block, and a client without the parent of that block. -/

section Loop

variable {ck : OverflowChecks} {clientPeer serverPeer : PeerId}

namespace Session

variable (ck : OverflowChecks) (limits : PeerId → Option UInt16) (clientPeer serverPeer : PeerId)

/-- one schedule: requests first, then storage replies -/
def next (x : Session) : Session :=
  match x.wire, x.replies with
  | request :: rest, _ =>
    match x.server.step ck (.frameReceived clientPeer
        (NetworkMessage.syncRequest (clampSyncRequest limits serverPeer request)).toBytes) with
    | .error _ => x
    | .ok (server, answer) =>
      match answer.filterMap (NodeAction.frameTo clientPeer) with
      | [frame] =>
        match x.client.step ck (.frameReceived serverPeer frame) with
        | .error _ => x
        | .ok (client, acts) => emit serverPeer acts { x with client := client, server := server, wire := rest }
      | _ => x
  | [], (h, bytes) :: rest =>
    match x.client.step ck (.storageLoaded h bytes) with
    | .error _ => x
    | .ok (client, acts) =>
      emit serverPeer acts { x with
        client := client
        replies := rest
        missing := x.missing + if Missing x.client h bytes then 1 else 0 }
  | [], [] => x

theorem next_spec (x : Session) :
    Step ck limits clientPeer serverPeer x (next ck limits clientPeer serverPeer x) ∨
      next ck limits clientPeer serverPeer x = x := by
  unfold next
  split
  · rename_i hwire
    split
    · exact .inr rfl
    · rename_i hserve
      split
      · rename_i hsent
        split
        · exact .inr rfl
        · rename_i htake
          exact .inl (.answer hwire hserve hsent htake)
      · exact .inr rfl
  · rename_i hreplies
    split
    · exact .inr rfl
    · rename_i htake
      exact .inl (.reply hreplies htake)
  · exact .inr rfl

/-- the run of that schedule -/
theorem run_of_next {client server : NodeEngine} {store : Hash → Option (List UInt8)} {x : Session}
    (h : start ck serverPeer client server store = .ok x) :
    SyncRun ck limits clientPeer serverPeer client server store
      (fun n => (next ck limits clientPeer serverPeer)^[n] x) := by
  refine ⟨h, fun n => ?_⟩
  simp only [Function.iterate_succ_apply']
  exact next_spec ck limits clientPeer serverPeer _

/-- a wake action is nothing to the exchange -/
theorem emit_wake {serverPeer : PeerId} {acts wake : List NodeAction} {x : Session}
    (h : wake = [] ∨ wake = [.cancelWake] ∨ ∃ t, wake = [.scheduleWake t]) :
    emit serverPeer (acts ++ wake) x = emit serverPeer acts x := by
  have hquiet : ∀ a ∈ wake, a.isRequest = false := by
    rcases h with rfl | rfl | ⟨t, rfl⟩ <;> simp [NodeAction.isRequest]
  have hstorage : ∀ storage, wake.foldl execute storage = storage := by
    intro storage
    rcases h with rfl | rfl | ⟨t, rfl⟩ <;> rfl
  obtain ⟨hcount, hlist⟩ := no_requests hquiet serverPeer
  simp only [emit, List.filterMap_append, List.countP_append, List.foldl_append, hcount, hlist, hstorage, List.append_nil,
    Nat.add_zero]

end Session

/-- an answer taken by the client, in the schedule without limits -/
theorem next_answer (clientPeer : PeerId) {x : Session} {request : SyncRequest} {rest : List SyncRequest} {response : SyncResponse}
    {client : NodeEngine} {acts : List NodeAction} (hwire : x.wire = request :: rest)
    (hserve : x.server.syncResponse request = .ok response) (hsized : (NetworkMessage.syncResponse response).Sized)
    (htake : x.client.handleSyncResponse ck serverPeer response = .ok (client, acts)) :
    ∃ server, server.blockchain = x.server.blockchain ∧
      Session.next ck (fun _ => none) clientPeer serverPeer x = Session.emit serverPeer acts { x with
        client := { client with scheduledWakeAtMs := client.nextWakeAtMs }
        server := server
        wire := rest } := by
  obtain ⟨server, answer, hstep, hsame, hframe⟩ := server_step ck hserve clientPeer
  have hbytes : NetworkMessage.fromBytes (NetworkMessage.syncResponse response).toBytes = .ok (.syncResponse response) := by
    have hround := fromBytes_toBytes_message hsized []
    rwa [List.append_nil] at hround
  have hhandle : x.client.handle ck (.frameReceived serverPeer (NetworkMessage.syncResponse response).toBytes) =
      .ok (client, acts) := by
    simp only [NodeEngine.handle, hbytes, NodeEngine.handleMessage, htake]
  obtain ⟨wake, hclient, hwake⟩ := step_of_handle_ok hhandle
  refine ⟨server, hsame, ?_⟩
  rw [← Session.emit_wake hwake]
  unfold Session.next
  simp only [hwire, clampSyncRequest, SyncRequest.clamp, hstep, hframe, hclient]

/-- a storage reply taken by the client -/
theorem next_reply {x : Session} {h : Hash} {bytes : Option (List UInt8)} {rest : List (Hash × Option (List UInt8))}
    {client : NodeEngine} {acts : List NodeAction} (hwire : x.wire = []) (hreplies : x.replies = (h, bytes) :: rest)
    (hhandle : x.client.handle ck (.storageLoaded h bytes) = .ok (client, acts)) :
    Session.next ck (fun _ => none) clientPeer serverPeer x = Session.emit serverPeer acts { x with
      client := { client with scheduledWakeAtMs := client.nextWakeAtMs }
      replies := rest
      missing := x.missing + if Session.Missing x.client h bytes then 1 else 0 } := by
  obtain ⟨wake, hstep, hwake⟩ := step_of_handle_ok hhandle
  rw [← Session.emit_wake hwake]
  unfold Session.next
  simp only [hwire, hreplies, hstep]

/-- the exchange goes round and round: the server has the block `r` and no other, the client does not have its parent -/
structure Loop (serverPeer : PeerId) (bc : Blockchain) (r : Block) (x : Session) : Prop where
  server : x.server.blockchain = bc
  head : x.client.blockchain.headHash ≠ r.previousHash
  parked : ∀ p ∈ x.client.pendingBlocks.getD r.previousHash [], p.peer = serverPeer ∧ p.block.height = r.height
  store : x.store r.previousHash = none

/-- one request on the wire, open at the client -/
structure Asks (serverPeer : PeerId) (request : SyncRequest) (x : Session) : Prop where
  wire : x.wire = [request]
  replies : x.replies = []
  opened : ∃ d, x.client.pendingRequests = [⟨serverPeer, request.fromHeight, request.toHeight, d⟩]

/-- the block was parked, and the storage has no snapshot of its parent -/
structure Misses (r : Block) (x : Session) : Prop where
  wire : x.wire = []
  replies : x.replies = [(r.previousHash, none)]
  opened : x.client.pendingRequests = []
  parked : x.client.pendingBlocks.getD r.previousHash [] ≠ []

/-- a request below `r` is sent on to `r` -/
theorem Loop.up (ck : OverflowChecks) (clientPeer : PeerId) {bc : Blockchain} {r : Block} {x : Session} {request : SyncRequest} (hx : Loop serverPeer bc r x)
    (hask : Asks serverPeer request x)
    (hserve : ∀ e : NodeEngine, e.blockchain = bc → e.syncResponse request = .ok ⟨[], false, some r.height⟩)
    (hpos : r.height ≠ 0) :
    Loop serverPeer bc r (Session.next ck (fun _ => none) clientPeer serverPeer x) ∧
      Asks serverPeer ⟨r.height, nextToHeight request r.height⟩
        (Session.next ck (fun _ => none) clientPeer serverPeer x) ∧
      (Session.next ck (fun _ => none) clientPeer serverPeer x).issued = x.issued + 1 := by
  obtain ⟨hwire, hreplies, d, hopened⟩ := hask
  have htake : x.client.handleSyncResponse ck serverPeer ⟨[], false, some r.height⟩ =
      .ok ({ x.client with pendingRequests := [⟨serverPeer, r.height, nextToHeight request r.height,
          saturatingAdd x.client.currentTimeMs requestTimeoutMs⟩] },
        [.requestBlocks serverPeer r.height (nextToHeight request r.height)]) := by
    simp only [NodeEngine.handleSyncResponse, NodeEngine.ingestBlocks, hopened, continueRequests_eq hpos, bind, Except.bind,
      pure, Except.pure]
    simp
  obtain ⟨server, hsame, hnext⟩ := next_answer clientPeer hwire (hserve x.server hx.server)
    ⟨by simp, fun b hb => absurd hb List.not_mem_nil⟩ htake
  rw [hnext]
  refine ⟨⟨hsame.trans hx.server, hx.head, hx.parked, hx.store⟩, ⟨?_, hreplies, _, rfl⟩, rfl⟩
  simp only [Session.emit, List.nil_append]
  rw [List.filterMap_cons_some (NodeAction.requestTo_self serverPeer _ _)]
  rfl

/-- the server sends `r`, the client parks it -/
theorem Loop.parks (ck : OverflowChecks) (clientPeer : PeerId) {bc : Blockchain} {r : Block} {x : Session} {request : SyncRequest} (hx : Loop serverPeer bc r x)
    (hask : Asks serverPeer request x)
    (hserve : ∀ e : NodeEngine, e.blockchain = bc → e.syncResponse request = .ok ⟨[r], false, none⟩)
    (hsized : r.Sized) :
    Loop serverPeer bc r (Session.next ck (fun _ => none) clientPeer serverPeer x) ∧
      Misses r (Session.next ck (fun _ => none) clientPeer serverPeer x) ∧
      (Session.next ck (fun _ => none) clientPeer serverPeer x).issued = x.issued := by
  obtain ⟨hwire, hreplies, d, hopened⟩ := hask
  have htake : x.client.handleSyncResponse ck serverPeer ⟨[r], false, none⟩ =
      .ok ({ x.client with pendingRequests := [] }.park serverPeer r, [.loadSnapshot r.previousHash]) := by
    simp only [NodeEngine.handleSyncResponse, NodeEngine.ingestBlocks, NodeEngine.ingestBlock, hopened, if_neg hx.head, bind,
      Except.bind, pure, Except.pure]
    simp
  obtain ⟨server, hsame, hnext⟩ := next_answer clientPeer hwire (hserve x.server hx.server)
    ⟨by simp, fun b hb => by rw [List.mem_singleton.1 hb]; exact hsized⟩ htake
  have hlist : ({ x.client with pendingRequests := [] }.park serverPeer r).pendingBlocks.getD r.previousHash [] =
      x.client.pendingBlocks.getD r.previousHash [] ++ [⟨serverPeer, r⟩] := by
    simp only [NodeEngine.park, BTreeMap.getD, BTreeMap.get?_insert, if_pos, Option.getD_some]
  rw [hnext]
  refine ⟨⟨hsame.trans hx.server, hx.head, fun p hp => ?_, hx.store⟩, ⟨rfl, ?_, rfl, ?_⟩, rfl⟩
  · have hmem : p ∈ x.client.pendingBlocks.getD r.previousHash [] ++ [⟨serverPeer, r⟩] := by
      rw [← hlist]
      exact hp
    rcases List.mem_append.1 hmem with hold | hnew
    · exact hx.parked p hold
    · rw [List.mem_singleton.1 hnew]
      exact ⟨rfl, rfl⟩
  · simp only [Session.emit, List.foldl_cons, List.foldl_nil, Session.execute, hreplies, hx.store, List.nil_append]
  · intro hnil
    have hnil' : x.client.pendingBlocks.getD r.previousHash [] ++ [(⟨serverPeer, r⟩ : ParkedBlock)] = [] := by
      rw [← hlist]
      exact hnil
    exact absurd hnil' (by simp)

/-- the client asks for the parent -/
theorem Loop.down (ck : OverflowChecks) (clientPeer : PeerId) {bc : Blockchain} {r : Block} {x : Session} (hx : Loop serverPeer bc r x) (hmiss : Misses r x) :
    Loop serverPeer bc r (Session.next ck (fun _ => none) clientPeer serverPeer x) ∧
      Asks serverPeer ⟨saturatingSub r.height 1, saturatingSub r.height 1⟩
        (Session.next ck (fun _ => none) clientPeer serverPeer x) ∧
      (Session.next ck (fun _ => none) clientPeer serverPeer x).issued = x.issued + 1 := by
  obtain ⟨hwire, hreplies, hopened, hparked⟩ := hmiss
  obtain ⟨p, hp⟩ : ∃ p, (x.client.pendingBlocks.get? r.previousHash).bind List.head? = some p := by
    unfold BTreeMap.getD at hparked
    cases hl : x.client.pendingBlocks.get? r.previousHash with
    | none =>
      rw [hl] at hparked
      exact absurd rfl hparked
    | some l =>
      rw [hl] at hparked
      exact Option.ne_none_iff_exists'.1 (mt List.head?_eq_none_iff.1 hparked)
  obtain ⟨hpeer, hheight⟩ : p.peer = serverPeer ∧ p.block.height = r.height := by
    refine hx.parked p ?_
    unfold BTreeMap.getD
    obtain ⟨l, hl, hhead⟩ := Option.bind_eq_some_iff.1 hp
    rw [hl]
    exact List.mem_of_head? hhead
  have hhandle : x.client.handle ck (.storageLoaded r.previousHash none) =
      .ok ({ x.client with pendingRequests := [⟨serverPeer, saturatingSub r.height 1, saturatingSub r.height 1,
          saturatingAdd x.client.currentTimeMs requestTimeoutMs⟩] },
        [.reportEvent "parent snapshot missing",
          .requestBlocks serverPeer (saturatingSub r.height 1) (saturatingSub r.height 1)]) := by
    simp only [NodeEngine.handle, NodeEngine.handleStorageLoaded, hp, NodeEngine.requestParentBlock,
      NodeEngine.queueBlockRequest, hopened, hpeer, hheight, List.nil_append]
  rw [next_reply hwire hreplies hhandle]
  refine ⟨⟨hx.server, hx.head, hx.parked, hx.store⟩, ⟨?_, rfl, _, rfl⟩, rfl⟩
  simp only [Session.emit, hwire, List.nil_append]
  rw [List.filterMap_cons_none rfl, List.filterMap_cons_some (NodeAction.requestTo_self serverPeer _ _)]
  rfl

/-- three steps a round, two requests each -/
theorem Loop.forever (ck : OverflowChecks) (clientPeer : PeerId) {bc : Blockchain} {r : Block} {x : Session} (hx : Loop serverPeer bc r x) (hmiss : Misses r x)
    (hbelow : ∀ e : NodeEngine, e.blockchain = bc →
      e.syncResponse ⟨saturatingSub r.height 1, saturatingSub r.height 1⟩ = .ok ⟨[], false, some r.height⟩)
    (hfirst : ∀ e : NodeEngine, e.blockchain = bc →
      e.syncResponse ⟨r.height, nextToHeight ⟨saturatingSub r.height 1, saturatingSub r.height 1⟩ r.height⟩ =
        .ok ⟨[r], false, none⟩)
    (hpos : r.height ≠ 0) (hsized : r.Sized) (k : ℕ) :
    Loop serverPeer bc r ((Session.next ck (fun _ => none) clientPeer serverPeer)^[3 * k] x) ∧
      Misses r ((Session.next ck (fun _ => none) clientPeer serverPeer)^[3 * k] x) ∧
      ((Session.next ck (fun _ => none) clientPeer serverPeer)^[3 * k] x).issued = x.issued + 2 * k := by
  induction k with
  | zero => exact ⟨hx, hmiss, rfl⟩
  | succ k ih =>
    obtain ⟨hy, hmiss, hissued⟩ := ih
    rw [show 3 * (k + 1) = 3 * k + 1 + 1 + 1 by omega, Function.iterate_succ_apply', Function.iterate_succ_apply',
      Function.iterate_succ_apply']
    generalize (Session.next ck (fun _ => none) clientPeer serverPeer)^[3 * k] x = y at *
    obtain ⟨hy₁, hask₁, h₁⟩ := hy.down ck clientPeer hmiss
    obtain ⟨hy₂, hask₂, h₂⟩ := hy₁.up ck clientPeer hask₁ hbelow hpos
    obtain ⟨hy₃, hmiss₃, h₃⟩ := hy₂.parks ck clientPeer hask₂ hfirst hsized
    exact ⟨hy₃, hmiss₃, by omega⟩

end Loop

end Quiesce

section Witness

open Sample

/-- a server restored at `m₂`, without its parent -/
def lateServer : NodeEngine := { NodeEngine.new .new with blockchain := .restoreHead m₂ State.new }

theorem lateServer_start : Start .debug lateServer m₂ State.new :=
  .restore .new (emptyChild_sized _ _ _) State.new_fits (by decide +kernel)

theorem lateServer_noCollision : NoCollision (blocksSeen m₂ lateServer []) := by
  intro a ha b hb _
  rw [List.mem_singleton.1 (mem_of_blocksSeen rfl ha), List.mem_singleton.1 (mem_of_blocksSeen rfl hb)]

theorem lateServer_tree :
    TreeInv .debug (lateServer_start.universe [] lateServer_noCollision) m₂ State.new lateServer.blockchain :=
  lateServer_start.tree _

theorem lateServer_addressable : Addressable lateServer.blockchain := by
  refine ⟨fun h b hb => ?_, by decide +kernel⟩
  rw [lateServer_start.blockAt_start hb, lateServer_tree.rootStored] at hb
  rw [← Option.some.inj hb]
  exact emptyChild_sized _ _ _

theorem lateServer_head : lateServer.blockchain.blockAt lateServer.blockchain.headHash = some m₂ :=
  lateServer_tree.rootStored

theorem lateServer_earliest : lateServer.blockchain.earliestContiguousHeight = .ok 2 := by decide +kernel

theorem lateServer_below {e : NodeEngine} (he : e.blockchain = lateServer.blockchain) {a b : UInt64} (h : a < 2) :
    e.syncResponse ⟨a, b⟩ = .ok ⟨[], false, some m₂.height⟩ :=
  syncResponse_below (by rw [he]; exact lateServer_earliest)
    (by rw [he]; exact Blockchain.getLatestBlock_ok_iff.2 lateServer_head) h (by decide +kernel)

theorem lateServer_first {e : NodeEngine} (he : e.blockchain = lateServer.blockchain) {b : UInt64} (h : 2 ≤ b) :
    e.syncResponse ⟨m₂.height, b⟩ = .ok ⟨[m₂], false, none⟩ := by
  have hcan : Canonical .debug m₂ State.new e.blockchain [] := by
    rw [he]
    exact ⟨.root, rfl⟩
  have hwidth : [m₂] = ([m₂].drop 0).take (b.toNat + 1 - m₂.height.toNat) := by
    have htwo : (2 : UInt64).toNat = 2 := rfl
    have hle := UInt64.le_iff_toNat_le.1 h
    rw [List.drop_zero, List.take_of_length_le]
    change 1 ≤ b.toNat + 1 - (2 : UInt64).toNat
    omega
  exact Canonical.serve (j := 0) (lateServer_start.root_mem lateServer_noCollision) (by rw [he]; exact lateServer_tree) hcan
    (by rw [he]; exact lateServer_head) (by decide +kernel) (by rw [he]; exact lateServer_earliest) rfl (Nat.zero_le _) h
    hwidth

theorem lateServer_loop : ∃ x, Session.start .debug peer (.new .new) lateServer (fun _ => none) = .ok x ∧
    Loop peer lateServer.blockchain m₂ x ∧ Asks peer ⟨1, 100⟩ x := by
  have hnew : Start .debug (.new .new) genesis State.new := .new
  have hhead : (NodeEngine.new Blockchain.new).blockchain.blockAt (NodeEngine.new Blockchain.new).blockchain.headHash =
      some genesis := (hnew.tree (lateServer_start.universe [] lateServer_noCollision)).rootStored
  obtain ⟨wake, hstep, hwake⟩ := step_of_handle_ok (handle_peerConnected .debug hhead rfl peer)
  refine ⟨_, by rw [Session.start, hstep]; rfl, ?_, ?_⟩
  · rw [Session.emit_wake hwake]
    exact ⟨rfl, by decide +kernel, (fun p hp => nomatch hp), rfl⟩
  · rw [Session.emit_wake hwake]
    refine ⟨?_, rfl, _, rfl⟩
    simp only [Session.emit, List.nil_append]
    rw [List.filterMap_cons_none rfl, List.filterMap_cons_some (NodeAction.requestTo_self peer _ _)]
    rfl

/-- the run of a new client with a server restored at `m₁`: it asks once, is sent three blocks and is done -/
def quietStart : Except Fault Session := Session.start .debug peer (.new .new) server.1 fun _ => none

theorem quietStart_isSome : quietStart.toOption.isSome = true := by
  decide +kernel

def quietSession (n : ℕ) : Session :=
  (Session.next .debug (fun _ => none) peer peer)^[n] (quietStart.toOption.get quietStart_isSome)

theorem quietSession_done :
    ((quietSession 1).wire.isEmpty = true ∧ (quietSession 1).replies.isEmpty = true) ∧
      ((quietSession 0).missing ≤ 0 ∧ (quietSession 1).missing ≤ 0) ∧
      (quietSession 1).client.blockchain.headHash = m₃.hash := by
  decide +kernel

theorem server_chain :
    (∀ e ∈ server.1.blockchain.chain.entries,
      (sameEmpty e.2.block m₁ || sameEmpty e.2.block m₂ || sameEmpty e.2.block m₃) = true) ∧
      server.1.blockchain.chain.len + 1 < 2 ^ 64 ∧
      ((server.1.blockchain.blockAt server.1.blockchain.headHash).any fun b => sameEmpty b m₃) = true := by
  decide +kernel

theorem server_addressable : Addressable server.1.blockchain := by
  obtain ⟨hentries, hlen, -⟩ := server_chain
  refine ⟨fun h b hb => ?_, hlen⟩
  obtain ⟨node, hnode, rfl⟩ := Option.map_eq_some_iff.1 hb
  have hsame := hentries (h, node) ((server.1.blockchain.chain.mem_entries_iff h node).2 hnode)
  rw [Bool.or_eq_true, Bool.or_eq_true] at hsame
  rcases hsame with (hm | hm) | hm
  all_goals
    rw [Option.some.inj (eq_some_of_sameEmpty (o := some node.block) hm)]
    exact emptyChild_sized _ _ _

theorem quietSession_rest (n : ℕ) : quietSession (n + 1) = quietSession 1 := by
  have hrest : Session.next .debug (fun _ => none) peer peer (quietSession 1) = quietSession 1 := by
    have hwire := List.isEmpty_iff.1 quietSession_done.1.1
    have hreplies := List.isEmpty_iff.1 quietSession_done.1.2
    unfold Session.next
    rw [hwire, hreplies]
  induction n with
  | zero => rfl
  | succ n ih =>
    have hnext : quietSession (n + 2) = Session.next .debug (fun _ => none) peer peer (quietSession (n + 1)) :=
      Function.iterate_succ_apply' _ _ _
    rw [hnext, ih, hrest]

theorem quiesces_iff_of_restored_server :
    (quietSession 1).client.blockchain.headHash = m₃.hash ∧ (∀ n, (quietSession n).missing ≤ 0) ∧
      ((∃ bound, ∀ n, (quietSession n).issued ≤ bound) ↔ ∃ most, ∀ n, (quietSession n).missing ≤ most) ∧
      ∀ n, (quietSession n).issued ≤ requestBound 0 3 0 := by
  have hrun : SyncRun .debug (fun _ => none) peer peer (.new .new) server.1 (fun _ => none) quietSession :=
    Session.run_of_next .debug (fun _ => none) peer peer (eq_ok_get quietStart_isSome)
  have hmissing : ∀ n, (quietSession n).missing ≤ 0 := by
    intro n
    cases n with
    | zero => exact quietSession_done.2.1.1
    | succ n =>
      rw [quietSession_rest n]
      exact quietSession_done.2.1.2
  have hhead : server.1.blockchain.getLatestBlock = .ok m₃ :=
    Blockchain.getLatestBlock_ok_iff.2 (eq_some_of_sameEmpty server_chain.2.2)
  obtain ⟨hiff, hbound⟩ := quiesces_iff_missing_bounded .debug (fun _ => none) peer peer (.new .new) server.1 (fun _ => none)
    quietSession .new server_addressable hrun
  refine ⟨quietSession_done.2.2, hmissing, hiff, hbound 3 0 ?_ hmissing⟩
  intro latest hlatest
  rw [hhead] at hlatest
  cases hlatest
  decide +kernel

/-- a new client and a server restored at `m₂`: the client asks for `m₁` and is sent `m₂`, for ever -/
theorem parked_again_forever :
    Reachable .debug (.new .new) ∧ Addressable lateServer.blockchain ∧
      ¬ ∀ x, SyncRun .debug (fun _ => none) peer peer (.new .new) lateServer (fun _ => none) x →
        ∃ bound, ∀ n, (x n).issued ≤ bound := by
  refine ⟨.new, lateServer_addressable, fun hall => ?_⟩
  obtain ⟨x, hstart, hx, hask⟩ := lateServer_loop
  obtain ⟨hx₁, hask₁, -⟩ := hx.up .debug peer hask (fun e he => lateServer_below he (by decide)) (by decide +kernel)
  obtain ⟨hx₂, hmiss, -⟩ := hx₁.parks .debug peer hask₁ (fun e he => lateServer_first he (by decide +kernel))
    (emptyChild_sized _ _ _)
  obtain ⟨bound, hbound⟩ := hall _ (Session.run_of_next .debug (fun _ => none) peer peer hstart)
  have hloop := hx₂.forever .debug peer hmiss (fun e he => lateServer_below he (by decide +kernel))
    (fun e he => lateServer_first he (by decide +kernel)) (by decide +kernel) (emptyChild_sized _ _ _) (bound + 1)
  have hn := hbound (3 * (bound + 1) + 2)
  simp only [Function.iterate_add_apply] at hn
  have hissued := hloop.2.2
  simp only [Function.iterate_succ_apply, Function.iterate_zero_apply] at hn
  omega

end Witness

end RustProof
