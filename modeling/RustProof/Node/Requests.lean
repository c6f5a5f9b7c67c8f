/-
What a step of the engine does to its open requests and to its wake-up.

Importing blocks touches neither (`SameTimer`); that importing keeps a frame condition like this one is shown once, for
any of them (`ImportFrame`). A step keeps the requests that its input does not answer, cancel or expire
(`NodeInput.keeps`), in order, and puts new ones behind them, all with the deadline that `queue_block_request` computes
from the time of the last tick; only some inputs make new ones (`NodeEngine.queues`). Then `sync_wake_action` compares the
earliest deadline with the wake-up it last asked for. That is `step_requests_spec`, and all that is used of the engine
here.
-/
import RustProof.Node.Engine

namespace RustProof

/-- `WakeCommand` of the runtimes -/
inductive WakeCommand where
  | schedule (atMs : UInt64)
  | cancel
deriving DecidableEq, Repr

section Requests

variable [Crypto]

/-- the command the node manager sends to the wake loop for an action -/
def NodeAction.wakeCommand : NodeAction → Option WakeCommand
  | .scheduleWake atMs => some (.schedule atMs)
  | .cancelWake => some .cancel
  | _ => none

namespace NodeEngine

variable {ck : OverflowChecks}

/-! ## Importing, for any frame condition -/

/-- a relation between the engine before, the engine after and the actions of a part of a step, that importing keeps -/
structure ImportFrame (R : NodeEngine → NodeEngine → List NodeAction → Prop) : Prop where
  refl : ∀ e, R e e []
  trans : ∀ {e₁ e₂ e₃ acts acts'}, R e₁ e₂ acts → R e₂ e₃ acts' → R e₁ e₃ (acts ++ acts')
  report : ∀ e m, R e e [.reportEvent m]
  add : ∀ e bc b bytes, R e { e with blockchain := bc } [.persistBlock b, .persistSnapshot b.hash bytes]
  take : ∀ e h, R e { e with pendingBlocks := e.pendingBlocks.remove h } []
  park : ∀ e peer b, R e (e.park peer b) [.loadSnapshot b.previousHash]

namespace ImportFrame

variable {R : NodeEngine → NodeEngine → List NodeAction → Prop}
  {importChildren : NodeEngine → Hash → State → Except Fault (NodeEngine × List NodeAction)}

theorem importIfHead (F : ImportFrame R)
    (hchildren : ∀ e h s e' acts, importChildren e h s = .ok (e', acts) → R e e' acts)
    {e e' : NodeEngine} {h : Hash} {imported : ImportedBlock} {acts : List NodeAction}
    (himport : NodeEngine.importIfHead importChildren e h imported = .ok (e', acts)) : R e e' acts := by
  unfold NodeEngine.importIfHead at himport
  split_ifs at himport
  · exact hchildren _ _ _ _ _ himport
  · cases himport
    exact F.refl e

theorem importEach (F : ImportFrame R)
    (hchildren : ∀ e h s e' acts, importChildren e h s = .ok (e', acts) → R e e' acts)
    (s : State) (ps : List ParkedBlock) {e e' : NodeEngine} {acts : List NodeAction}
    (himport : NodeEngine.importEach ck importChildren s ps e = .ok (e', acts)) : R e e' acts := by
  induction ps generalizing e e' acts with
  | nil =>
    cases himport
    exact F.refl e
  | cons p ps ih =>
    rw [NodeEngine.importEach] at himport
    split at himport
    · cases himport
    · obtain ⟨⟨e₁, acts₁⟩, hrest, himport⟩ := bind_ok himport
      cases himport
      exact F.trans (F.report e _) (ih hrest)
    · rename_i bc imported _
      obtain ⟨⟨e₁, acts₁⟩, hhead, himport⟩ := bind_ok himport
      obtain ⟨⟨e₂, acts₂⟩, hrest, himport⟩ := bind_ok himport
      cases himport
      have hbelow := F.trans (F.importIfHead hchildren hhead) (ih hrest)
      exact F.trans (F.add e bc p.block _) hbelow

theorem importParked (F : ImportFrame R) (fuel : ℕ) (e : NodeEngine) (h : Hash) (s : State) (e' : NodeEngine)
    (acts : List NodeAction) (himport : NodeEngine.importParked ck fuel e h s = .ok (e', acts)) : R e e' acts := by
  induction fuel generalizing e h s e' acts with
  | zero => cases himport
  | succ fuel ih =>
    rw [NodeEngine.importParked] at himport
    split at himport
    · cases himport
      exact F.refl e
    · exact F.trans (F.take e h) (F.importEach ih s _ himport)

theorem importParkedBlocks (F : ImportFrame R) {e e' : NodeEngine} {h : Hash} {s : State} {acts : List NodeAction}
    (himport : NodeEngine.importParkedBlocks ck e h s = .ok (e', acts)) : R e e' acts :=
  F.importParked _ e h s e' acts himport

theorem ingestBlock (F : ImportFrame R) {e e' : NodeEngine} {peer : PeerId} {b : Block} {acts : List NodeAction}
    (hingest : e.ingestBlock ck peer b = .ok (e', acts)) : R e e' acts := by
  unfold NodeEngine.ingestBlock at hingest
  split_ifs at hingest
  · split at hingest
    · cases hingest
    · cases hingest
      exact F.report e _
    · rename_i bc imported _
      obtain ⟨⟨e₁, acts₁⟩, hhead, hingest⟩ := bind_ok hingest
      cases hingest
      have hchildren := F.importIfHead (fun _ _ _ _ _ himport => F.importParkedBlocks himport) hhead
      exact F.trans (F.add e bc b _) (F.trans (F.report _ "Block added") hchildren)
  · cases hingest
    exact F.park e peer b

theorem ingestBlocks (F : ImportFrame R) {peer : PeerId} (bs : List Block) {e e' : NodeEngine} {acts : List NodeAction}
    (hingest : NodeEngine.ingestBlocks ck peer bs e = .ok (e', acts)) : R e e' acts := by
  induction bs generalizing e e' acts with
  | nil =>
    cases hingest
    exact F.refl e
  | cons b bs ih =>
    rw [NodeEngine.ingestBlocks] at hingest
    obtain ⟨⟨e₁, acts₁⟩, hb, hingest⟩ := bind_ok hingest
    obtain ⟨⟨e₂, acts₂⟩, hrest, hingest⟩ := bind_ok hingest
    cases hingest
    exact F.trans (F.ingestBlock hb) (ih hrest)

end ImportFrame

/-! ## Importing leaves requests and wake-up alone -/

structure SameTimer (e e' : NodeEngine) (acts : List NodeAction) : Prop where
  requests : e'.pendingRequests = e.pendingRequests
  time : e'.currentTimeMs = e.currentTimeMs
  scheduled : e'.scheduledWakeAtMs = e.scheduledWakeAtMs
  noWake : ∀ a ∈ acts, a.wakeCommand = none

theorem SameTimer.refl (e : NodeEngine) : SameTimer e e [] := ⟨rfl, rfl, rfl, fun _ ha => nomatch ha⟩

theorem SameTimer.trans {e₁ e₂ e₃ : NodeEngine} {acts acts' : List NodeAction} (h : SameTimer e₁ e₂ acts)
    (h' : SameTimer e₂ e₃ acts') : SameTimer e₁ e₃ (acts ++ acts') := by
  refine ⟨h'.requests.trans h.requests, h'.time.trans h.time, h'.scheduled.trans h.scheduled, fun a ha => ?_⟩
  rcases List.mem_append.1 ha with ha | ha
  · exact h.noWake a ha
  · exact h'.noWake a ha

/-- the engine's ledger and one more action -/
theorem SameTimer.cons {e e' : NodeEngine} {acts : List NodeAction} (h : SameTimer e e' acts) {a : NodeAction}
    (ha : a.wakeCommand = none) : SameTimer e e' (a :: acts) := by
  refine ⟨h.requests, h.time, h.scheduled, fun x hx => ?_⟩
  rcases List.mem_cons.1 hx with rfl | hx
  · exact ha
  · exact h.noWake x hx

theorem importFrame_sameTimer : ImportFrame SameTimer where
  refl := SameTimer.refl
  trans := SameTimer.trans
  report e _ := (SameTimer.refl e).cons rfl
  add _ _ _ _ := by
    refine ⟨rfl, rfl, rfl, fun a ha => ?_⟩
    rcases List.mem_cons.1 ha with rfl | ha
    · rfl
    · rw [List.mem_singleton.1 ha]
      rfl
  take _ _ := ⟨rfl, rfl, rfl, fun _ ha => nomatch ha⟩
  park _ _ _ := ⟨rfl, rfl, rfl, fun a ha => by rw [List.mem_singleton.1 ha]; rfl⟩

end NodeEngine

/-! ## The requests of a step -/

/-- the request survives the input: not expired, not of a peer that went away or answered -/
def NodeInput.keeps (input : NodeInput) (r : PendingRequest) : Bool :=
  match input with
  | .tick nowMs => decide (r.deadlineMs > nowMs)
  | .peerDisconnected peer => decide (r.peer ≠ peer)
  | .frameReceived peer frame =>
    match NetworkMessage.fromBytes frame with
    | .ok (.syncResponse _) => decide (r.peer ≠ peer)
    | _ => true
  | _ => true

/-- `current_time_ms` after the input -/
def NodeInput.timeAfter (input : NodeInput) (currentTimeMs : UInt64) : UInt64 :=
  match input with
  | .tick nowMs => nowMs
  | _ => currentTimeMs

namespace NodeEngine

variable {ck : OverflowChecks}

/-- the input makes the engine ask for blocks: a new peer, a missing parent, an answer that goes on, a local order -/
def queues (e : NodeEngine) : NodeInput → Bool
  | .peerConnected _ => true
  | .importRequested _ _ _ => true
  | .storageLoaded blockHash none => ((e.pendingBlocks.get? blockHash).bind List.head?).isSome
  | .frameReceived peer frame =>
    match NetworkMessage.fromBytes frame with
    | .ok (.syncResponse response) =>
      response.nextHeight.any (fun n => decide (n ≠ 0)) && e.pendingRequests.any fun r => decide (r.peer = peer)
    | _ => false
  | _ => false

/-- what a step does to the requests, before the wake action -/
structure Requested (e : NodeEngine) (input : NodeInput) (e' : NodeEngine) (acts : List NodeAction) : Prop where
  requests : ∃ added, e'.pendingRequests = e.pendingRequests.filter input.keeps ++ added ∧
    (∀ r ∈ added, r.deadlineMs = saturatingAdd e.currentTimeMs requestTimeoutMs) ∧ (e.queues input = false → added = [])
  time : e'.currentTimeMs = input.timeAfter e.currentTimeMs
  scheduled : e'.scheduledWakeAtMs = e.scheduledWakeAtMs
  noWake : ∀ a ∈ acts, a.wakeCommand = none

/-- an input that keeps all requests and leaves the timer alone -/
theorem SameTimer.requested {e e' : NodeEngine} {input : NodeInput} {acts : List NodeAction} (h : SameTimer e e' acts)
    (hkeeps : input.keeps = fun _ => true) (htime : ∀ t, input.timeAfter t = t) : Requested e input e' acts := by
  refine ⟨⟨[], ?_, fun r hr => (nomatch hr), fun _ => rfl⟩, h.time.trans (htime _).symm, h.scheduled, h.noWake⟩
  rw [h.requests, hkeeps, List.append_nil, List.filter_eq_self.2 fun _ _ => rfl]

/-- an input that keeps all requests and makes one -/
theorem queued_requested {e : NodeEngine} {input : NodeInput} (e' : NodeEngine) {r : PendingRequest}
    {acts : List NodeAction} (hkeeps : input.keeps = fun _ => true) (htime : ∀ t, input.timeAfter t = t)
    (hqueues : e.queues input = true) (hrequests : e'.pendingRequests = e.pendingRequests ++ [r])
    (hr : r.deadlineMs = saturatingAdd e.currentTimeMs requestTimeoutMs) (hsame : e'.currentTimeMs = e.currentTimeMs)
    (hscheduled : e'.scheduledWakeAtMs = e.scheduledWakeAtMs) (hacts : ∀ a ∈ acts, a.wakeCommand = none) :
    Requested e input e' acts := by
  refine ⟨⟨[r], ?_, fun x hx => ?_, fun hno => ?_⟩, hsame.trans (htime _).symm, hscheduled, hacts⟩
  · rw [hrequests, hkeeps, List.filter_eq_self.2 fun _ _ => rfl]
  · rw [List.mem_singleton.1 hx]
    exact hr
  · rw [hqueues] at hno
    cases hno

/-- an answered request that goes on is a new one -/
theorem continueRequest_eq (e : NodeEngine) (request : PendingRequest) {n : UInt64} (hn : n ≠ 0) :
    ∃ r : PendingRequest, r.deadlineMs = saturatingAdd e.currentTimeMs requestTimeoutMs ∧
      e.continueRequest request n =
        ({ e with pendingRequests := e.pendingRequests ++ [r] }, [.requestBlocks r.peer r.fromHeight r.toHeight]) := by
  rw [continueRequest, if_neg hn]
  refine ⟨⟨request.peer, n, if n ≤ request.toHeight then request.toHeight
    else saturatingAdd n (saturatingSub request.toHeight request.fromHeight),
    saturatingAdd e.currentTimeMs requestTimeoutMs⟩, ?_, rfl⟩
  dsimp only

/-- the continuations of answered requests -/
theorem continueRequests_spec (n : UInt64) (requests : List PendingRequest) (e : NodeEngine) :
    (∃ added, (continueRequests n requests e).1.pendingRequests = e.pendingRequests ++ added ∧
      (∀ r ∈ added, r.deadlineMs = saturatingAdd e.currentTimeMs requestTimeoutMs) ∧
      (n = 0 ∨ requests = [] → added = [])) ∧
    (continueRequests n requests e).1.currentTimeMs = e.currentTimeMs ∧
    (continueRequests n requests e).1.scheduledWakeAtMs = e.scheduledWakeAtMs ∧
    ∀ a ∈ (continueRequests n requests e).2, a.wakeCommand = none := by
  induction requests generalizing e with
  | nil =>
    refine ⟨⟨[], ?_, fun r hr => (nomatch hr), fun _ => rfl⟩, rfl, rfl, fun a ha => (nomatch ha)⟩
    rw [List.append_nil]
    rfl
  | cons r requests ih =>
    rw [continueRequests]
    by_cases hn : n = 0
    · have hskip : e.continueRequest r n = (e, []) := by rw [continueRequest, if_pos hn]
      rw [hskip]
      obtain ⟨⟨added, hadded, hdeadline, hnone⟩, htime, hscheduled, hacts⟩ := ih e
      exact ⟨⟨added, hadded, hdeadline, fun _ => hnone (.inl hn)⟩, htime, hscheduled, hacts⟩
    · obtain ⟨next, hnext, heq⟩ := continueRequest_eq e r hn
      rw [heq]
      obtain ⟨⟨added, hadded, hdeadline, -⟩, htime, hscheduled, hacts⟩ :=
        ih { e with pendingRequests := e.pendingRequests ++ [next] }
      refine ⟨⟨next :: added, ?_, ?_, ?_⟩, htime, hscheduled, ?_⟩
      · rw [List.append_assoc] at hadded
        exact hadded
      · intro x hx
        rcases List.mem_cons.1 hx with rfl | hx
        · exact hnext
        · exact hdeadline x hx
      · rintro (h | h)
        · exact absurd h hn
        · cases h
      · intro a ha
        rcases List.mem_append.1 ha with ha | ha
        · rw [List.mem_singleton.1 ha]
          rfl
        · exact hacts a ha

theorem handleSyncResponse_requested {e e' : NodeEngine} {peer : PeerId} {frame : Frame} {response : SyncResponse}
    {acts : List NodeAction} (hframe : NetworkMessage.fromBytes frame = .ok (.syncResponse response))
    (h : e.handleSyncResponse ck peer response = .ok (e', acts)) : Requested e (.frameReceived peer frame) e' acts := by
  unfold handleSyncResponse at h
  obtain ⟨⟨e₁, acts₁⟩, hingest, h⟩ := bind_ok h
  have hsame := importFrame_sameTimer.ingestBlocks _ hingest
  have hkeeps : (NodeInput.frameReceived peer frame).keeps = fun r => decide (r.peer ≠ peer) := by
    funext r
    simp only [NodeInput.keeps, hframe]
  have hqueues : e.queues (.frameReceived peer frame) =
      (response.nextHeight.any (fun n => decide (n ≠ 0)) && e.pendingRequests.any fun r => decide (r.peer = peer)) := by
    simp only [queues, hframe]
  -- an answer without any action is acknowledged
  have hack : ∀ l : List NodeAction, (∀ a ∈ l, a.wakeCommand = none) →
      ∀ a ∈ (if l.isEmpty then [.frameReceived peer] else l), a.wakeCommand = none := by
    intro l hl a ha
    split_ifs at ha
    · rw [List.mem_singleton.1 ha]
      rfl
    · exact hl a ha
  cases hn : response.nextHeight with
  | none =>
    rw [hn] at h
    cases h
    refine ⟨⟨[], ?_, fun r hr => (nomatch hr), fun _ => rfl⟩, hsame.time, hsame.scheduled, hack _ hsame.noWake⟩
    rw [hsame.requests, hkeeps, List.append_nil]
  | some n =>
    rw [hn] at h
    cases h
    obtain ⟨⟨added, hadded, hdeadline, hnone⟩, htime, hscheduled, hacts⟩ :=
      continueRequests_spec n (e.pendingRequests.filter fun request => decide (request.peer = peer)) e₁
    refine ⟨⟨added, ?_, ?_, fun hno => hnone ?_⟩, htime.trans hsame.time, hscheduled.trans hsame.scheduled,
      hack _ fun a ha => ?_⟩
    · rw [hadded, hsame.requests, hkeeps]
    · rw [hsame.time] at hdeadline
      exact hdeadline
    · rw [hqueues, hn, Option.any_some] at hno
      rcases Bool.and_eq_false_iff.1 hno with hzero | hpeer
      · exact .inl (not_not.1 (of_decide_eq_false hzero))
      · refine .inr (List.filter_eq_nil_iff.2 fun r hr hown => ?_)
        exact absurd (List.any_eq_false.1 hpeer r hr) (not_not.2 hown)
    · rcases List.mem_append.1 ha with ha | ha
      · exact hsame.noWake a ha
      · exact hacts a ha

theorem handleMessage_requested {e e' : NodeEngine} {peer : PeerId} {frame : Frame} {message : NetworkMessage}
    {acts : List NodeAction} (hframe : NetworkMessage.fromBytes frame = .ok message)
    (h : e.handleMessage ck peer message = .ok (e', acts)) : Requested e (.frameReceived peer frame) e' acts := by
  -- all messages but an answer keep the requests
  have hother : (∀ response, message ≠ .syncResponse response) → SameTimer e e' acts →
      Requested e (.frameReceived peer frame) e' acts := by
    intro hne hsame
    refine hsame.requested ?_ fun _ => rfl
    funext r
    simp only [NodeInput.keeps, hframe]
    split
    · rename_i response heq
      exact absurd (Except.ok.inj heq) (hne response)
    · rfl
  match message with
  | .syncResponse response => exact handleSyncResponse_requested hframe h
  | .announceRequest ⟨.newBlock block⟩ => exact hother (fun _ hne => nomatch hne) (importFrame_sameTimer.ingestBlock h)
  | .announceRequest ⟨.newTransaction tx⟩ =>
    refine hother (fun _ hne => nomatch hne) ?_
    have heq : e.announceTransaction peer tx = (e', acts) := Except.ok.inj h
    unfold announceTransaction at heq
    split at heq
    · cases heq
      refine ⟨rfl, rfl, rfl, fun a ha => ?_⟩
      split_ifs at ha
      · obtain ⟨p, -, rfl⟩ := List.mem_map.1 ha
        rfl
      · cases ha
    · cases heq
      exact (SameTimer.refl e).cons rfl
  | .syncRequest request =>
    refine hother (fun _ hne => nomatch hne) ?_
    obtain ⟨response, -, h⟩ := bind_ok h
    cases h
    exact (SameTimer.refl e).cons rfl
  | .announceResponse response =>
    cases h
    exact hother (fun _ hne => nomatch hne) ((SameTimer.refl e).cons rfl)

theorem handleStorageLoaded_requested {e e' : NodeEngine} {blockHash : Hash} {stateBytes : Option (List UInt8)}
    {acts : List NodeAction} (h : e.handleStorageLoaded ck blockHash stateBytes = .ok (e', acts)) :
    Requested e (.storageLoaded blockHash stateBytes) e' acts := by
  unfold handleStorageLoaded at h
  split at h
  · cases h
    exact ((SameTimer.refl e).cons rfl).requested rfl fun _ => rfl
  rename_i parked hparked
  split at h
  · split at h
    · cases h
    · cases h
      exact ((SameTimer.refl e).cons rfl).requested rfl fun _ => rfl
    · exact (importFrame_sameTimer.importParkedBlocks h).requested rfl fun _ => rfl
  · cases h
    have hqueues : e.queues (.storageLoaded blockHash none) = true := by
      simp only [queues, hparked, Option.isSome_some]
    refine queued_requested _ rfl (fun _ => rfl) hqueues rfl (by dsimp only) rfl rfl fun a ha => ?_
    rcases List.mem_cons.1 ha with rfl | ha
    · rfl
    · rw [List.mem_singleton.1 ha]
      rfl

theorem handle_requested {e e' : NodeEngine} {input : NodeInput} {acts : List NodeAction}
    (h : e.handle ck input = .ok (e', acts)) : Requested e input e' acts := by
  cases input with
  | tick nowMs =>
    cases h
    refine ⟨⟨[], ?_, fun r hr => (nomatch hr), fun _ => rfl⟩, rfl, rfl, fun a ha => (nomatch ha)⟩
    rw [List.append_nil]
    rfl
  | peerConnected peer =>
    obtain ⟨latest, -, h⟩ := bind_ok h
    cases h
    refine queued_requested _ rfl (fun _ => rfl) rfl rfl (by dsimp only) rfl rfl fun a ha => ?_
    rcases List.mem_cons.1 ha with rfl | ha
    · rfl
    · rw [List.mem_singleton.1 ha]
      rfl
  | peerDisconnected peer =>
    cases h
    refine ⟨⟨[], ?_, fun r hr => (nomatch hr), fun _ => rfl⟩, rfl, rfl, fun a ha => ?_⟩
    · rw [List.append_nil]
      rfl
    · rw [List.mem_singleton.1 ha]
      rfl
  | frameReceived peer frame =>
    simp only [handle] at h
    split at h
    · rename_i message hframe
      exact handleMessage_requested hframe h
    · rename_i err hframe
      cases h
      refine ((SameTimer.refl e).cons rfl).requested ?_ fun _ => rfl
      funext r
      simp only [NodeInput.keeps, hframe]
  | localTransactionSubmitted tx =>
    have heq : e.submitTransaction tx = (e', acts) := Except.ok.inj h
    refine SameTimer.requested ?_ rfl fun _ => rfl
    unfold submitTransaction at heq
    split at heq
    · cases heq
      refine ⟨rfl, rfl, rfl, fun a ha => ?_⟩
      split_ifs at ha
      · rw [List.mem_singleton.1 ha]
        rfl
      · cases ha
    · cases heq
      exact (SameTimer.refl e).cons rfl
  | storageLoaded blockHash stateBytes => exact handleStorageLoaded_requested h
  | persistCompleted persistType =>
    cases h
    exact ((SameTimer.refl e).cons rfl).requested rfl fun _ => rfl
  | importRequested peer fromHeight toHeight =>
    cases h
    refine queued_requested _ rfl (fun _ => rfl) rfl rfl (by dsimp only) rfl rfl fun a ha => ?_
    rw [List.mem_singleton.1 ha]
    rfl

/-! ## The wake-up of a step -/

/-- the commands a step sends to the wake loop: one if the earliest deadline is not the wake-up asked for last -/
def wakeCommands (scheduled next : Option UInt64) : List WakeCommand :=
  if next = scheduled then []
  else
    match next with
    | some atMs => [.schedule atMs]
    | none => [.cancel]

/-- what a whole step does to requests and wake-up -/
structure Stepped (e : NodeEngine) (input : NodeInput) (e' : NodeEngine) (acts : List NodeAction) : Prop where
  requests : ∃ added, e'.pendingRequests = e.pendingRequests.filter input.keeps ++ added ∧
    (∀ r ∈ added, r.deadlineMs = saturatingAdd e.currentTimeMs requestTimeoutMs) ∧ (e.queues input = false → added = [])
  time : e'.currentTimeMs = input.timeAfter e.currentTimeMs
  scheduled : e'.scheduledWakeAtMs = e'.nextWakeAtMs
  commands : acts.filterMap NodeAction.wakeCommand = wakeCommands e.scheduledWakeAtMs e'.nextWakeAtMs

theorem step_requests_spec {e e' : NodeEngine} {input : NodeInput} {acts : List NodeAction}
    (h : e.step ck input = .ok (e', acts)) : Stepped e input e' acts := by
  obtain ⟨⟨e₁, acts₁⟩, hhandle, h⟩ := bind_ok h
  have hreq := handle_requested hhandle
  have hnone : acts₁.filterMap NodeAction.wakeCommand = [] := List.filterMap_eq_nil_iff.2 hreq.noWake
  simp only [syncWakeAction] at h
  split_ifs at h with hsame
  · cases h
    refine ⟨hreq.requests, hreq.time, hsame.symm, ?_⟩
    unfold wakeCommands
    rw [List.append_nil, hnone, hsame, hreq.scheduled, if_pos rfl]
  · cases h
    refine ⟨hreq.requests, hreq.time, rfl, ?_⟩
    have hnext : NodeEngine.nextWakeAtMs { e₁ with scheduledWakeAtMs := e₁.nextWakeAtMs } = e₁.nextWakeAtMs := rfl
    unfold wakeCommands
    rw [List.filterMap_append, hnone, List.nil_append, hnext, ← hreq.scheduled, if_neg hsame]
    cases e₁.nextWakeAtMs with
    | none => rfl
    | some atMs => rfl

end NodeEngine

end Requests

end RustProof
