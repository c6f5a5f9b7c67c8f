/-
How transactions spread between engines (`rp-node/src/node_engine.rs`, `rp-node/src/mempool.rs`).

An engine that adds an announced transaction to its mempool relays it to its connected peers other than the source
(`relay_transaction`), and broadcasts a local one. `GossipNet` is a network of engines with the frames under way, in any
order; the runtime of an engine hands a `SendFrame` to the session of the peer, a `BroadcastFrame` to all sessions and makes
a `RequestBlocks` a `SyncRequest` to its peer. The engines exchange blocks over the same links, and every other input may
come at any time: ticks, answers of the storage, and from peers outside the network their sessions, blocks and transactions.

A block that becomes head changes what the engine judges transactions by, and its mempool. `GossipNet.heads` counts the
steps of each engine in which that happens; whether it does in a step is `StepMeets StaysBehind`.

The network refines the flood (`Flood`) whose nodes are head states with mempools and whose items are transactions: taking
an item is what `Blockchain::add_transaction` does to the mempool, each frame that announces a transaction is a message, and
a step in which a block becomes head is a reset (`Refines`).

Results:
- `gossip_crosses_once`: as long as no block becomes head of an engine, it announces a transaction at most once over a link,
  and at most once more for each step in which one does;
- `gossip_converges`: in a connected network of engines with a common head state and empty mempools, when no block has become
  head and no announcement is under way, all mempools hold the highest fees of everything valid that was submitted
  anywhere, and exactly these transactions if they fit.
-/
import RustProof.Node.Relay
import RustProof.Sync.Asking

namespace RustProof

section General

variable [Crypto]

/-! ## The network -/

section Network

variable {ι : Type} [DecidableEq ι]

/-- engines, the frames under way and those that have arrived, as sender, receiver and frame, and what has happened -/
structure GossipNet (ι : Type) where
  engine : ι → NodeEngine
  /-- the steps of each engine in which a block became its head -/
  heads : ι → ℕ
  flying : List (ι × ι × Frame)
  crossed : List (ι × ι × Frame)
  /-- the transactions that came from outside the network, and where -/
  submitted : List (ι × Transaction)

omit [DecidableEq ι] in
/-- what was submitted anywhere and is valid -/
def GossipNet.valid (σ : GossipNet ι) (s : State) : List Transaction := (σ.submitted.map Prod.snd).filter s.isValidTx

inductive GossipMove (ι : Type) where
  /-- an input that comes from outside the network -/
  | input (i : ι) (x : NodeInput)
  /-- the frame at this position arrives -/
  | deliver (n : ℕ)

/-- the engines by their peer ids, to whom each has a session, and how many blocks at a time it may ask them for -/
structure Overlay (ι : Type) where
  peerId : ι → PeerId
  /-- the engine with this peer id, if it is of the network -/
  node : PeerId → Option ι
  node_eq_some : ∀ peer i, node peer = some i ↔ peerId i = peer
  links : ι → List ι
  maxBlocksPerChunk : ι → ι → Option UInt16

namespace Overlay

variable (T : Overlay ι)

/-- the session of `i` to a peer -/
def session (i : ι) (peer : PeerId) : List ι := (T.links i).filter fun j => decide (T.peerId j = peer)

/-- the frames that the runtime of `i` sends for an action -/
def frames (i : ι) : NodeAction → List (ι × ι × Frame)
  | .sendFrame peer frame => (T.session i peer).map fun j => (i, j, frame)
  | .broadcastFrame frame => (T.links i).map fun j => (i, j, frame)
  | .requestBlocks peer fromHeight toHeight =>
    (T.session i peer).map fun j =>
      let request := SyncRequest.clamp (T.maxBlocksPerChunk i j) ⟨fromHeight, toHeight⟩
      (i, j, (NetworkMessage.syncRequest request).toBytes)
  | _ => []

/-- the engine `i` takes an input, if it does not panic, and its runtime executes the actions -/
def run (ck : OverflowChecks) (σ : GossipNet ι) (i : ι) (input : NodeInput) : Option (GossipNet ι) :=
  match (σ.engine i).step ck input with
  | .ok (e, actions) =>
    some { σ with
      engine := Function.update σ.engine i e
      heads := if (σ.engine i).StepMeets NodeEngine.StaysBehind ck input then σ.heads
        else Function.update σ.heads i (σ.heads i + 1)
      flying := σ.flying ++ actions.flatMap (T.frames i) }
  | .error _ => none

def exec (ck : OverflowChecks) (σ : GossipNet ι) : GossipMove ι → Option (GossipNet ι)
  | .input i x => T.run ck { σ with submitted := σ.submitted ++ x.transaction.toList.map fun tx => (i, tx) } i x
  | .deliver n =>
    match σ.flying[n]? with
    | some (a, b, frame) =>
      T.run ck { σ with flying := σ.flying.eraseIdx n, crossed := σ.crossed ++ [(a, b, frame)] } b
        (.frameReceived (T.peerId a) frame)
    | none => none

/-- the engines of the network that an engine is connected to -/
def sessions (e : NodeEngine) : List ι := e.connectedPeers.filterMap T.node

/-- nothing has happened, and every engine is connected to the engines it has sessions to; heads, states and mempools are
any that engines come to -/
structure Start (σ : GossipNet ι) : Prop where
  sessions : ∀ i, T.sessions (σ.engine i) = T.links i
  parked : ∀ i, Parked (fun _ => True) (σ.engine i)
  pool : ∀ i, Pool.Kept 10000 (σ.engine i).blockchain.mempool
  heads : ∀ i, σ.heads i = 0
  flying : σ.flying = []
  crossed : σ.crossed = []
  submitted : σ.submitted = []

/-- ... and all engines have the head state `s` and an empty mempool -/
structure StartAt (s : State) (σ : GossipNet ι) : Prop extends T.Start σ where
  state : ∀ i, (σ.engine i).blockchain.state = s
  empty : ∀ i, (σ.engine i).blockchain.mempool = .new 10000

def machine (ck : OverflowChecks) (init : GossipNet ι → Prop) : Machine (GossipNet ι) (GossipMove ι) where
  init := init
  exec := T.exec ck

/-- The sessions between the engines stay, and their frames come over the links only; the lists of what is submitted have
lengths that fit in 64 bits. -/
def Closed (_ : GossipNet ι) : GossipMove ι → Prop
  | .input _ (.peerConnected peer) | .input _ (.peerDisconnected peer) | .input _ (.frameReceived peer _) =>
    T.node peer = none
  | .input _ (.localTransactionSubmitted tx) => tx.Sized
  | _ => True

/-! ## The sessions -/

variable {T} {ck : OverflowChecks}

omit [DecidableEq ι] in
/-- the connected engines of the network, from the entries of the network only -/
theorem sessions_eq (e : NodeEngine) :
    T.sessions e = (((e.peers.retain fun peer _ => (T.node peer).isSome).entries.filter fun p => p.2.connected).map
      Prod.fst).filterMap T.node := by
  unfold sessions NodeEngine.connectedPeers BTreeMap.retain
  rw [List.filterMap_map, List.filterMap_map, List.filterMap_filter, List.filterMap_filter, List.filterMap_filter]
  refine List.filterMap_congr ?_
  intro p _
  cases hnode : T.node p.1 with
  | none => simp [hnode]
  | some j => simp [hnode]

omit [DecidableEq ι] in
theorem sessions_congr {e e' : NodeEngine} (h : ∀ peer, T.node peer ≠ none → e'.peers.get? peer = e.peers.get? peer) :
    T.sessions e' = T.sessions e := by
  have hretain : (e'.peers.retain fun peer _ => (T.node peer).isSome) =
      e.peers.retain fun peer _ => (T.node peer).isSome := by
    refine BTreeMap.ext_get? ?_
    intro peer
    rw [BTreeMap.get?_retain, BTreeMap.get?_retain]
    cases hnode : T.node peer with
    | none => simp
    | some j => rw [h peer (by rw [hnode]; exact Option.some_ne_none j)]
  rw [sessions_eq, sessions_eq, hretain]

omit [DecidableEq ι] in
theorem sessions_step {e e' : NodeEngine} {input : NodeInput} {acts : List NodeAction}
    (hstep : e.step ck input = .ok (e', acts))
    (hapart : ∀ peer, input = .peerConnected peer ∨ input = .peerDisconnected peer → T.node peer = none) :
    T.sessions e' = T.sessions e := by
  refine sessions_congr ?_
  intro peer hnode
  rw [(step_asked hstep).2]
  cases input with
  | peerConnected other =>
    refine BTreeMap.get?_insert_ne _ _ ?_
    rintro rfl
    exact hnode (hapart other (.inl rfl))
  | peerDisconnected other =>
    refine BTreeMap.get?_remove_ne _ ?_
    rintro rfl
    exact hnode (hapart other (.inr rfl))
  | _ => rfl

omit [Crypto] [DecidableEq ι] in
theorem peerId_injective : Function.Injective T.peerId := by
  intro i j hij
  have hi := (T.node_eq_some (T.peerId i) i).2 rfl
  rw [hij, (T.node_eq_some (T.peerId j) j).2 rfl] at hi
  exact (Option.some.inj hi).symm

omit [DecidableEq ι] in
theorem sessions_nodup (e : NodeEngine) : (T.sessions e).Nodup := by
  refine List.Nodup.filterMap ?_ ((BTreeMap.keys_nodup e.peers).sublist (List.filter_sublist.map Prod.fst))
  intro peer other j hpeer hother
  rw [← (T.node_eq_some peer j).1 hpeer]
  exact (T.node_eq_some other j).1 hother

/-- the runtime sends each relayed announcement to the one session of its peer, if that is of the network -/
theorem frames_relay {e : NodeEngine} {i : ι} (h : T.sessions e = T.links i) (source : PeerId) (tx : Transaction) :
    (e.relayTransaction source tx).flatMap (T.frames i) =
      ((T.links i).filter fun j => decide (T.peerId j ≠ source)).map fun j => (i, j, announcement tx) := by
  have hnodup : (T.links i).Nodup := h ▸ sessions_nodup e
  have hone : ∀ peer ∈ e.connectedPeers, T.session i peer = (T.node peer).toList := by
    intro peer hpeer
    unfold session
    cases hnode : T.node peer with
    | none =>
      refine List.filter_eq_nil_iff.2 ?_
      intro j _ hj
      rw [(T.node_eq_some peer j).2 (of_decide_eq_true hj)] at hnode
      cases hnode
    | some j =>
      have hj : j ∈ T.links i := by
        rw [← h]
        exact List.mem_filterMap.2 ⟨peer, hpeer, hnode⟩
      have heq : (fun k => decide (T.peerId k = peer)) = fun k => k == j := by
        funext k
        rw [← (T.node_eq_some peer j).1 hnode, decide_eq_decide.2 (peerId_injective.eq_iff (a := k) (b := j))]
        rfl
      rw [heq, List.filter_beq, List.count_eq_one_of_mem hnodup hj]
      rfl
  have hfilter : (e.connectedPeers.filter fun peer => decide (peer ≠ source)).filterMap T.node =
      (T.links i).filter fun j => decide (T.peerId j ≠ source) := by
    rw [← h, sessions, List.filterMap_filter, List.filter_filterMap]
    refine List.filterMap_congr ?_
    intro peer _
    cases hnode : T.node peer with
    | none => simp
    | some j =>
      rw [← (T.node_eq_some peer j).1 hnode]
      by_cases hsource : T.peerId j = source <;> simp [Option.filter, hsource]
  rw [NodeEngine.relayTransaction_eq, List.flatMap_map, ← hfilter, List.filterMap_eq_flatMap_toList, List.map_flatMap]
  refine List.flatMap_congr ?_
  intro peer hpeer
  simp only [frames]
  rw [hone peer (List.mem_filter.1 hpeer).1]

/-! ## The network refines the flood -/

omit [DecidableEq ι] in
/-- the messages among the frames -/
def announcements (l : List (ι × ι × Frame)) : List (ι × ι × Frame) := l.filter fun m => (announced m.2.2).isSome

omit [DecidableEq ι] in
/-- a message of the flood as its frame -/
def wire (m : Flood.Msg ι Transaction) : ι × ι × Frame := (m.taking.node, m.receiver, announcement m.taking.item)

omit [DecidableEq ι] in
theorem frames_silent {a : NodeAction} (h : NodeEngine.Silent a) (i : ι) : announcements (T.frames i a) = [] := by
  have hall : ∀ (l : List ι) (frame : ι → Frame), (∀ j, announced (frame j) = none) →
      announcements (l.map fun j => (i, j, frame j)) = [] := by
    intro l frame hframe
    refine List.filter_eq_nil_iff.2 ?_
    intro m hm hsome
    obtain ⟨j, _, rfl⟩ := List.mem_map.1 hm
    rw [hframe j] at hsome
    cases hsome
  cases a with
  | sendFrame peer frame => exact hall _ (fun _ => frame) fun _ => h
  | broadcastFrame frame => exact hall _ (fun _ => frame) fun _ => h
  | requestBlocks peer fromHeight toHeight =>
    refine hall (T.session i peer)
      (fun j => (NetworkMessage.syncRequest (SyncRequest.clamp (T.maxBlocksPerChunk i j) ⟨fromHeight, toHeight⟩)).toBytes) ?_
    intro j
    exact announced_of_tag (by simp [NetworkMessage.tag])
  | _ => rfl

omit [DecidableEq ι] in
theorem frames_silents {actions : List NodeAction} (h : ∀ a ∈ actions, NodeEngine.Silent a) (i : ι) :
    announcements (actions.flatMap (T.frames i)) = [] := by
  unfold announcements
  rw [List.filter_flatMap]
  refine List.flatMap_eq_nil_iff.2 ?_
  intro a ha
  exact frames_silent (h a ha) i

omit [DecidableEq ι] in
theorem announcements_wire {onward : List ι} {i : ι} {tx : Transaction} (r : ℕ) (h : tx.Sized) :
    announcements (onward.map fun j => (i, j, announcement tx)) =
      (onward.map fun j => (⟨⟨i, r, tx⟩, j⟩ : Flood.Msg ι Transaction)).map wire := by
  rw [List.map_map]
  refine List.filter_eq_self.2 ?_
  intro m hm
  obtain ⟨j, _, rfl⟩ := List.mem_map.1 hm
  rw [announced_announcement h]
  rfl

structure Refines (T : Overlay ι) (σ : GossipNet ι) (φ : Flood.Net ι (State × Mempool) Transaction) : Prop where
  sessions : ∀ i, T.sessions (σ.engine i) = T.links i
  parked : ∀ i, Parked (fun _ => True) (σ.engine i)
  state : ∀ i, (σ.engine i).blockchain.state = (φ.state i).1
  pool : ∀ i, (σ.engine i).blockchain.mempool = (φ.state i).2
  kept : ∀ i, Pool.Kept 10000 (φ.state i).2
  heads : ∀ i, σ.heads i = φ.resets i
  flying : announcements σ.flying = φ.flying.map wire
  crossed : announcements σ.crossed = φ.crossed.map wire
  submitted : σ.submitted = φ.submitted
  sized : ∀ m ∈ φ.crossed ++ φ.flying, m.taking.item.Sized

variable {σ σ' : GossipNet ι} {φ : Flood.Net ι (State × Mempool) Transaction}

/-- an engine judges a transaction: the flood offers it to the node -/
theorem Refines.judged (h : T.Refines σ φ) {i : ι} {input : NodeInput} {r : NodeEngine × List NodeAction} {tx : Transaction}
    {relay : List NodeAction} {onward : List ι} (hhandle : (σ.engine i).handle ck input = .ok r)
    (hjudged : NodeEngine.Judged (σ.engine i) tx relay r) (hmeets : (σ.engine i).StepMeets NodeEngine.StaysBehind ck input)
    (hrelay : relay.flatMap (T.frames i) = onward.map fun j => (i, j, announcement tx)) (hsized : tx.Sized)
    (hrun : T.run ck σ i input = some σ') : T.Refines σ' ((Pool.flood T.links).offer φ i tx onward) := by
  obtain ⟨e, actions⟩ := r
  obtain ⟨⟨wakeAt, hsync⟩, hsilent⟩ := e.syncWakeAction_silent
  have hstep : (σ.engine i).step ck input = .ok ({ e with scheduledWakeAtMs := wakeAt }, actions ++ e.syncWakeAction.2) := by
    rw [NodeEngine.step, hhandle, ← hsync]
    rfl
  rw [Overlay.run, hstep] at hrun
  dsimp only at hrun
  rw [if_pos hmeets] at hrun
  cases hrun
  have hflying : announcements (σ.flying ++ (actions ++ e.syncWakeAction.2).flatMap (T.frames i)) =
      announcements σ.flying ++ announcements (actions.flatMap (T.frames i)) := by
    have hwake := frames_silents (T := T) hsilent i
    unfold announcements at hwake ⊢
    rw [List.flatMap_append, List.filter_append, List.filter_append, hwake, List.append_nil]
  have htake : ∀ o, Pool.take (σ.engine i).blockchain.state (σ.engine i).blockchain.mempool tx = o →
      (Pool.flood T.links).take (φ.state i) tx = o.map fun m => ((φ.state i).1, m) := by
    intro o ho
    rw [h.state i, h.pool i] at ho
    rw [← ho]
    rfl
  rw [Flood.offer]
  cases hjudged with
  | taken m take =>
    rw [htake _ take, Option.map_some]
    have hkept : Pool.Kept 10000 m := by
      rw [h.state i, h.pool i] at take
      exact (h.kept i).take take
    refine ⟨?_, ?_, ?_, ?_, ?_, h.heads, ?_, h.crossed, h.submitted, ?_⟩
    · exact forall_update (P := fun j e => T.sessions e = T.links j) h.sessions (h.sessions i)
    · exact forall_update (P := fun _ e => Parked (fun _ => True) e) h.parked (h.parked i)
    · exact forall_update₂ (R := fun (e : NodeEngine) (node : State × Mempool) => e.blockchain.state = node.1) h.state
        (h.state i)
    · exact forall_update₂ (R := fun (e : NodeEngine) (node : State × Mempool) => e.blockchain.mempool = node.2) h.pool rfl
    · exact forall_update (P := fun _ (node : State × Mempool) => Pool.Kept 10000 node.2) h.kept hkept
    · rw [hflying, hrelay, announcements_wire (φ.resets i) hsized, h.flying, ← List.map_append]
    · intro m hm
      rw [← List.append_assoc] at hm
      rcases List.mem_append.1 hm with hm | hm
      · exact h.sized m hm
      · obtain ⟨j, _, rfl⟩ := List.mem_map.1 hm
        exact hsized
  | dropped take actions silent =>
    rw [htake _ take, Option.map_none]
    refine ⟨?_, ?_, ?_, ?_, h.kept, h.heads, ?_, h.crossed, h.submitted, h.sized⟩
    · exact forall_update (P := fun j e => T.sessions e = T.links j) h.sessions (h.sessions i)
    · exact forall_update (P := fun _ e => Parked (fun _ => True) e) h.parked (h.parked i)
    · exact forall_update (P := fun j (e : NodeEngine) => e.blockchain.state = (φ.state j).1) h.state (h.state i)
    · exact forall_update (P := fun j (e : NodeEngine) => e.blockchain.mempool = (φ.state j).2) h.pool (h.pool i)
    · rw [hflying, frames_silents silent i, List.append_nil]
      exact h.flying

/-- a step that brings no transaction: nothing for the flood, or a reset if a block becomes head -/
theorem Refines.rests (h : T.Refines σ φ) {i : ι} {input : NodeInput} (hno : input.transaction = none)
    (hapart : ∀ peer, input = .peerConnected peer ∨ input = .peerDisconnected peer → T.node peer = none)
    (hrun : T.run ck σ i input = some σ') :
    ∃ φ', T.Refines σ' φ' ∧ (φ' = φ ∨ ∃ m', Flood.Fresh (fun node => Pool.Kept 10000 node.2) φ m' ∧
      (Pool.flood T.links).exec φ m' = some φ') := by
  unfold Overlay.run at hrun
  cases hstep : (σ.engine i).step ck input with
  | error f =>
    rw [hstep] at hrun
    cases hrun
  | ok r =>
    obtain ⟨e, actions⟩ := r
    rw [hstep] at hrun
    cases hrun
    have hrests := NodeEngine.step_rests (h.parked i) (by rw [h.pool i]; exact h.kept i) hno hstep
    have hsessions : ∀ j, T.sessions (Function.update σ.engine i e j) = T.links j :=
      forall_update (P := fun j e => T.sessions e = T.links j) h.sessions ((sessions_step hstep hapart).trans (h.sessions i))
    have hparked : ∀ j, Parked (fun _ => True) (Function.update σ.engine i e j) :=
      forall_update (P := fun _ e => Parked (fun _ => True) e) h.parked hrests.parked
    have hflying : announcements (σ.flying ++ actions.flatMap (T.frames i)) = φ.flying.map wire := by
      have hsilent := frames_silents (T := T) hrests.silent i
      unfold announcements at hsilent ⊢
      rw [List.filter_append, hsilent, List.append_nil]
      exact h.flying
    by_cases hstill : (σ.engine i).StepMeets NodeEngine.StaysBehind ck input
    · obtain ⟨hstate, hpool⟩ := hrests.same hstill
      refine ⟨φ, ⟨hsessions, hparked, ?_, ?_, h.kept, ?_, hflying, h.crossed, h.submitted, h.sized⟩, .inl rfl⟩
      · exact forall_update (P := fun j (e : NodeEngine) => e.blockchain.state = (φ.state j).1) h.state
          (hstate.trans (h.state i))
      · exact forall_update (P := fun j (e : NodeEngine) => e.blockchain.mempool = (φ.state j).2) h.pool
          (hpool.trans (h.pool i))
      · rw [if_pos hstill]
        exact h.heads
    · let node : State × Mempool := (e.blockchain.state, e.blockchain.mempool)
      refine ⟨{ φ with state := Function.update φ.state i node, resets := Function.update φ.resets i (φ.resets i + 1) },
        ⟨hsessions, hparked, ?_, ?_, ?_, ?_, hflying, h.crossed, h.submitted, h.sized⟩,
        .inr ⟨.reset i node, hrests.kept, rfl⟩⟩
      · exact forall_update₂ (R := fun (e : NodeEngine) (node : State × Mempool) => e.blockchain.state = node.1) h.state rfl
      · exact forall_update₂ (R := fun (e : NodeEngine) (node : State × Mempool) => e.blockchain.mempool = node.2) h.pool rfl
      · exact forall_update (P := fun _ (node : State × Mempool) => Pool.Kept 10000 node.2) h.kept hrests.kept
      · rw [if_neg hstill]
        exact forall_update₂ (R := fun n r => n = r) h.heads (congrArg (· + 1) (h.heads i))

omit [Crypto] [DecidableEq ι] in
/-- taking an element out of a list takes it out of the chosen ones, if it is one -/
theorem filter_eraseIdx {α : Type} {p : α → Bool} {l : List α} {n : ℕ} {a : α} (h : l[n]? = some a) :
    (p a = true → ∃ k, (l.filter p)[k]? = some a ∧ (l.eraseIdx n).filter p = (l.filter p).eraseIdx k) ∧
      (p a = false → (l.eraseIdx n).filter p = l.filter p) := by
  induction l generalizing n with
  | nil => cases h
  | cons x l ih =>
    cases n with
    | zero =>
      cases h
      refine ⟨?_, ?_⟩
      · intro hp
        rw [List.filter_cons_of_pos hp]
        exact ⟨0, rfl, rfl⟩
      · intro hp
        rw [List.filter_cons_of_neg (by rw [hp]; exact Bool.false_ne_true)]
        rfl
    | succ n =>
      obtain ⟨hin, hout⟩ := ih (n := n) h
      rw [List.eraseIdx_cons_succ, List.filter_cons, List.filter_cons]
      by_cases hx : p x = true
      · rw [if_pos hx, if_pos hx]
        refine ⟨?_, ?_⟩
        · intro hp
          obtain ⟨k, hk, herase⟩ := hin hp
          refine ⟨k + 1, hk, ?_⟩
          rw [herase]
          rfl
        · intro hp
          rw [hout hp]
      · rw [if_neg hx, if_neg hx]
        exact ⟨hin, hout⟩

/-- an input from outside the network -/
theorem Refines.input (h : T.Refines σ φ) {i : ι} {x : NodeInput} (hclosed : T.Closed σ (.input i x))
    (hexec : T.exec ck σ (.input i x) = some σ') :
    ∃ φ', T.Refines σ' φ' ∧ (φ' = φ ∨ ∃ m', Flood.Fresh (fun node => Pool.Kept 10000 node.2) φ m' ∧
      (Pool.flood T.links).exec φ m' = some φ') := by
  unfold Overlay.exec at hexec
  dsimp only at hexec
  have hbefore : T.Refines { σ with submitted := σ.submitted ++ x.transaction.toList.map fun tx => (i, tx) }
      { φ with submitted := φ.submitted ++ x.transaction.toList.map fun tx => (i, tx) } := by
    refine ⟨h.sessions, h.parked, h.state, h.pool, h.kept, h.heads, h.flying, h.crossed, ?_, h.sized⟩
    rw [h.submitted]
  cases htx : x.transaction with
  | none =>
    rw [htx] at hexec hbefore
    simp only [Option.toList_none, List.map_nil, List.append_nil] at hexec hbefore
    refine hbefore.rests htx ?_ hexec
    rintro peer (rfl | rfl)
    · exact hclosed
    · exact hclosed
  | some tx =>
    have hmeets : (σ.engine i).StepMeets NodeEngine.StaysBehind ck x := NodeEngine.stepMeets_of_transaction htx _
    rw [htx] at hexec hbefore
    simp only [Option.toList_some, List.map_cons, List.map_nil] at hexec hbefore
    cases x with
    | localTransactionSubmitted u =>
      obtain rfl : u = tx := Option.some.inj htx
      refine ⟨_, hbefore.judged (r := (σ.engine i).submitTransaction u) rfl (NodeEngine.judged_submit _ u) hmeets
        (List.flatMap_singleton _ _) hclosed hexec, .inr ⟨.submit i u, trivial, rfl⟩⟩
    | frameReceived peer frame =>
      have houtside : T.node peer = none := hclosed
      -- the source is not of the network, so the transaction goes to all engines linked
      have hrelay : ((σ.engine i).relayTransaction peer tx).flatMap (T.frames i) =
          (T.links i).map fun j => (i, j, announcement tx) := by
        rw [frames_relay (h.sessions i) peer tx, List.filter_eq_self.2]
        intro j _
        refine decide_eq_true ?_
        intro hpeer
        rw [(T.node_eq_some peer j).2 hpeer] at houtside
        cases houtside
      exact ⟨_, hbefore.judged (NodeEngine.handle_announced htx _ peer) (NodeEngine.judged_announce _ peer tx)
        hmeets hrelay (announced_sized htx) hexec, .inr ⟨.submit i tx, trivial, rfl⟩⟩
    | _ => cases htx

omit [DecidableEq ι] in
/-- a frame that announces nothing arrives -/
theorem Refines.arrive_other (h : T.Refines σ φ) {n : ℕ} {m : ι × ι × Frame} (hget : σ.flying[n]? = some m)
    (hno : announced m.2.2 = none) :
    T.Refines { σ with flying := σ.flying.eraseIdx n, crossed := σ.crossed ++ [m] } φ := by
  have hp : (announced m.2.2).isSome = false := by
    rw [hno]
    rfl
  obtain ⟨_, hout⟩ := filter_eraseIdx (p := fun m : ι × ι × Frame => (announced m.2.2).isSome) hget
  refine ⟨h.sessions, h.parked, h.state, h.pool, h.kept, h.heads, (hout hp).trans h.flying, ?_, h.submitted, h.sized⟩
  unfold announcements
  rw [List.filter_append, List.filter_cons_of_neg (by rw [hp]; exact Bool.false_ne_true), List.filter_nil, List.append_nil]
  exact h.crossed

omit [DecidableEq ι] in
/-- an announcement arrives: the message of the flood that it is -/
theorem Refines.arrive (h : T.Refines σ φ) {n : ℕ} {a b : ι} {frame : Frame} {tx : Transaction}
    (hget : σ.flying[n]? = some (a, b, frame)) (htx : announced frame = some tx) :
    ∃ k r, φ.flying[k]? = some ⟨⟨a, r, tx⟩, b⟩ ∧
      T.Refines { σ with flying := σ.flying.eraseIdx n, crossed := σ.crossed ++ [(a, b, frame)] }
        { φ with flying := φ.flying.eraseIdx k, crossed := φ.crossed ++ [⟨⟨a, r, tx⟩, b⟩] } := by
  have hp : (announced frame).isSome = true := by
    rw [htx]
    rfl
  have hcrossed : announcements (σ.crossed ++ [(a, b, frame)]) = announcements σ.crossed ++ [(a, b, frame)] := by
    unfold announcements
    rw [List.filter_append, List.filter_cons_of_pos (by exact hp), List.filter_nil]
  obtain ⟨hin, _⟩ := filter_eraseIdx (p := fun m : ι × ι × Frame => (announced m.2.2).isSome) hget
  obtain ⟨k, hk, herase⟩ := hin hp
  change (announcements σ.flying)[k]? = _ at hk
  rw [h.flying, List.getElem?_map] at hk
  obtain ⟨⟨⟨a', r, tx'⟩, b'⟩, hm, hwire⟩ := Option.map_eq_some_iff.1 hk
  obtain ⟨rfl, hrest⟩ := Prod.mk.inj hwire
  obtain ⟨rfl, rfl⟩ := Prod.mk.inj hrest
  have hsized := h.sized _ (List.mem_append_right _ (List.mem_of_getElem? hm))
  obtain rfl : tx' = tx := Option.some.inj ((announced_announcement hsized).symm.trans htx)
  refine ⟨k, r, hm, h.sessions, h.parked, h.state, h.pool, h.kept, h.heads, ?_, ?_, h.submitted, ?_⟩
  · refine herase.trans ?_
    change (announcements σ.flying).eraseIdx k = _
    rw [h.flying, List.eraseIdx_map]
  · refine hcrossed.trans ?_
    rw [h.crossed, List.map_append]
    rfl
  · intro m hmem
    exact h.sized m ((Flood.perm_deliver hm).subset hmem)

theorem Refines.deliver (h : T.Refines σ φ) {n : ℕ} (hexec : T.exec ck σ (.deliver n) = some σ') :
    ∃ φ', T.Refines σ' φ' ∧ (φ' = φ ∨ ∃ m', Flood.Fresh (fun node => Pool.Kept 10000 node.2) φ m' ∧
      (Pool.flood T.links).exec φ m' = some φ') := by
  unfold Overlay.exec at hexec
  dsimp only at hexec
  cases hget : σ.flying[n]? with
  | none =>
    rw [hget] at hexec
    cases hexec
  | some m =>
    obtain ⟨a, b, frame⟩ := m
    rw [hget] at hexec
    dsimp only at hexec
    cases htx : announced frame with
    | none =>
      have hno : (NodeInput.frameReceived (T.peerId a) frame).transaction = none := htx
      refine (h.arrive_other hget htx).rests hno ?_ hexec
      rintro peer (heq | heq)
      · cases heq
      · cases heq
    | some tx =>
      obtain ⟨k, r, hm, hbefore⟩ := h.arrive hget htx
      have hinput : (NodeInput.frameReceived (T.peerId a) frame).transaction = some tx := htx
      have hrelay : ((σ.engine b).relayTransaction (T.peerId a) tx).flatMap (T.frames b) =
          ((T.links b).filter fun j => decide (j ≠ a)).map fun j => (b, j, announcement tx) := by
        rw [frames_relay (h.sessions b)]
        refine congrArg (List.map _) (List.filter_congr ?_)
        intro j _
        simp [peerId_injective.eq_iff]
      refine ⟨_, hbefore.judged (NodeEngine.handle_announced htx _ (T.peerId a))
        (NodeEngine.judged_announce _ (T.peerId a) tx) (NodeEngine.stepMeets_of_transaction hinput _) hrelay
        (announced_sized htx) hexec, .inr ⟨.deliver k, trivial, ?_⟩⟩
      unfold Flood.exec
      dsimp only
      rw [hm]
      rfl

theorem Refines.exec (h : T.Refines σ φ) {m : GossipMove ι} (hclosed : T.Closed σ m) (hexec : T.exec ck σ m = some σ') :
    ∃ φ', T.Refines σ' φ' ∧ (φ' = φ ∨ ∃ m', Flood.Fresh (fun node => Pool.Kept 10000 node.2) φ m' ∧
      (Pool.flood T.links).exec φ m' = some φ') := by
  cases m with
  | input i x => exact h.input hclosed hexec
  | deliver n => exact h.deliver hexec

omit [DecidableEq ι] in
theorem Start.refines (h : T.Start σ) :
    T.Refines σ (Flood.start fun i => ((σ.engine i).blockchain.state, (σ.engine i).blockchain.mempool)) := by
  refine ⟨h.sessions, h.parked, fun _ => rfl, fun _ => rfl, h.pool, h.heads, ?_, ?_, h.submitted, ?_⟩
  · rw [h.flying]
    rfl
  · rw [h.crossed]
    rfl
  · intro m hm
    exact absurd hm List.not_mem_nil

/-- every run is one of the flood, from the head states and mempools of its start -/
theorem Refines.reached {init : GossipNet ι → Prop} (hinit : ∀ σ, init σ → T.Start σ)
    (h : (T.machine ck init).Reached T.Closed σ) :
    ∃ σ₀ φ, init σ₀ ∧ T.Refines σ φ ∧
      ((Pool.flood T.links).machine fun i =>
        ((σ₀.engine i).blockchain.state, (σ₀.engine i).blockchain.mempool)).Reached
          (Flood.Fresh fun node => Pool.Kept 10000 node.2) φ := by
  refine h.invariant (I := fun σ => ∃ σ₀ φ, init σ₀ ∧ T.Refines σ φ ∧
    ((Pool.flood T.links).machine fun i =>
      ((σ₀.engine i).blockchain.state, (σ₀.engine i).blockchain.mempool)).Reached
        (Flood.Fresh fun node => Pool.Kept 10000 node.2) φ) ?_ ?_
  · intro σ hσ
    exact ⟨σ, _, hσ, (hinit σ hσ).refines, .start rfl⟩
  · rintro σ m σ' ⟨σ₀, φ, h₀, hφ, hreached⟩ hclosed hexec
    obtain ⟨φ', hφ', rfl | ⟨m', hfresh, hm'⟩⟩ := hφ.exec hclosed hexec
    · exact ⟨σ₀, φ', h₀, hφ', hreached⟩
    · exact ⟨σ₀, φ', h₀, hφ', hreached.step hfresh hm'⟩

omit [DecidableEq ι] in
theorem Refines.lawful (h : T.Refines σ φ) : (Pool.flood T.links).Lawful fun node => Pool.Kept 10000 node.2 := by
  refine Pool.flood_lawful 10000 ?_
  intro i
  rw [← h.sessions i]
  exact sessions_nodup _

/-! ## What holds in every run -/

theorem count_announcements {l : List (ι × ι × Frame)} {i j : ι} {frame : Frame} (h : (announced frame).isSome = true) :
    (announcements l).count (i, j, frame) = l.count (i, j, frame) := by
  unfold announcements
  refine List.count_filter ?_
  exact h

omit [DecidableEq ι] in
theorem Refines.announcements_eq (h : T.Refines σ φ) :
    announcements (σ.crossed ++ σ.flying) = (φ.crossed ++ φ.flying).map wire := by
  unfold announcements
  rw [List.filter_append, List.map_append]
  exact congrArg₂ (· ++ ·) h.crossed h.flying

/-- **Flooding ends.** Whatever is submitted, however the frames are delayed and whatever else comes to the engines: a
transaction is announced over a link at most once in each direction, and at most once more for each step in which a block
became head of the sender. So the number of announcements, arrived or under way, is bounded. -/
theorem gossip_crosses_once [Fintype ι] (h : (T.machine ck T.Start).Reached T.Closed σ) :
    (∀ i j frame, (announced frame).isSome = true →
      (σ.crossed ++ σ.flying).count (i, j, frame) ≤ σ.heads i + 1) ∧
      (announcements (σ.crossed ++ σ.flying)).length ≤
        (∑ i, (σ.heads i + 1) * (T.links i).length) * σ.submitted.length := by
  obtain ⟨σ₀, φ, h₀, hφ, hreached⟩ := Refines.reached (fun _ hσ => hσ) h
  refine ⟨?_, ?_⟩
  · intro i j frame hframe
    obtain ⟨tx, htx⟩ := Option.isSome_iff_exists.1 hframe
    rw [← count_announcements hframe, hφ.announcements_eq, List.count, List.countP_map, hφ.heads i]
    refine Flood.Reached.crossings hφ.lawful h₀.pool hreached (b := j) (x := tx) ?_
    intro m hm heq
    obtain ⟨hi, hrest⟩ := Prod.mk.inj (eq_of_beq heq)
    obtain ⟨hj, hitem⟩ := Prod.mk.inj hrest
    refine ⟨hi, hj, ?_⟩
    rw [← hitem, announced_announcement (hφ.sized m hm)] at htx
    exact Option.some.inj htx
  · have hbound := Flood.Reached.bounded hφ.lawful h₀.pool hreached
    rw [hφ.announcements_eq, List.length_map, List.length_append, hφ.submitted]
    simp only [hφ.heads]
    exact hbound

omit [Crypto] [DecidableEq ι] in
theorem links_symm_path (hsymm : ∀ i j, j ∈ T.links i → i ∈ T.links j) {P : ι → Prop}
    (hstep : ∀ i j, j ∈ T.links i → i ∈ T.links j → P i → P j) {i j : ι}
    (hpath : Relation.ReflTransGen (fun i j => j ∈ T.links i) i j) (hi : P i) : P j := by
  induction hpath with
  | refl => exact hi
  | tail _ hlink ih => exact hstep _ _ hlink (hsymm _ _ hlink) ih

/-- **Mempools converge.** In a connected network whose engines start with one head state and empty mempools, and in which
no block has become head of any engine: once all announcements have arrived, each mempool holds the highest fees of the
valid transactions submitted anywhere, as many as fit; where all fit it holds exactly these transactions. -/
theorem gossip_converges {s : State} (hsymm : ∀ i j, j ∈ T.links i → i ∈ T.links j)
    (hconn : ∀ i j, Relation.ReflTransGen (fun i j => j ∈ T.links i) i j)
    (h : (T.machine ck (T.StartAt s)).Reached T.Closed σ) (hheads : ∀ i, σ.heads i = 0)
    (hquiet : announcements σ.flying = []) (i : ι) :
    let m := (σ.engine i).blockchain.mempool
    (m.getPendingTransactions m.transactions.len).map Transaction.fee = Mempool.topFees 10000 (σ.valid s) ∧
      (((σ.valid s).map Transaction.order).toFinset.card ≤ 10000 →
        m.transactions.keys = ((σ.valid s).map Transaction.order).toFinset) := by
  obtain ⟨σ₀, φ, h₀, hφ, hreached⟩ := Refines.reached (fun _ hσ => hσ.toStart) h
  have hlawful := hφ.lawful
  have hzero : ∀ j, φ.resets j = 0 := fun j => (hφ.heads j).symm.trans (hheads j)
  -- no node was reset, so all still judge by `s` and hold only what is valid in it
  have hnode : ∀ j, (φ.state j).1 = s ∧ Pool.Sound 10000 s (φ.state j).2 := by
    intro j
    refine Flood.Reached.unreset (P := fun node => node.1 = s ∧ Pool.Sound 10000 s node.2) ?_ ?_ hreached (hzero j)
    · intro j
      refine ⟨h₀.state j, ?_⟩
      rw [h₀.empty j]
      exact Pool.sound_new 10000 s
    · rintro node tx node' ⟨hs, hsound⟩ htake
      obtain ⟨hstate, htake⟩ := Pool.flood_take_eq_some htake
      rw [hs] at htake
      exact ⟨hstate.trans hs, hsound.take htake⟩
  have hnone : φ.flying = [] := by
    rw [hφ.flying] at hquiet
    exact List.map_eq_nil_iff.1 hquiet
  -- what a mempool holds was taken there, so it is valid and its neighbours have settled it
  have hheld : ∀ {j : ι} {k : UInt64ᵒᵈ ×ₗ Hash}, k ∈ (φ.state j).2.transactions.keys →
      ∃ tx, tx.order = k ∧ s.isValidTx tx = true ∧ ⟨j, 0, tx⟩ ∈ φ.taken := by
    intro j k hk
    obtain ⟨tx, hholds, horder⟩ := (hnode j).2.1.order_mem hk
    refine ⟨tx, horder, (hnode j).2.2 tx hholds, ?_⟩
    refine Flood.Reached.held (H := fun node tx => node.2.holds tx) ?_ ?_ hreached (hzero j) hholds
    · rintro j tx ⟨k, hk⟩
      dsimp only at hk
      rw [h₀.empty j] at hk
      cases hk
    · intro node tx t node' htake ht
      exact Pool.holds_of_take (Pool.flood_take_eq_some htake).2 ht
  have hsettled : ∀ {j : ι} {tx : Transaction}, s.isValidTx tx = true → (Pool.flood T.links).take (φ.state j) tx = none →
      Covers feeOf 10000 (φ.state j).2.transactions.keys tx.order := by
    intro j tx hvalid htake
    rw [Pool.flood_take_eq_none, (hnode j).1] at htake
    refine ((Pool.take_eq_none_iff (hnode j).2.1 tx).1 htake).resolve_left ?_
    rw [hvalid]
    exact Bool.noConfusion
  have hneighbour : ∀ a b, b ∈ T.links a → ∀ k ∈ (φ.state a).2.transactions.keys,
      Covers feeOf 10000 (φ.state b).2.transactions.keys k := by
    intro a b hlink k hk
    obtain ⟨tx, rfl, hvalid, htaken⟩ := hheld hk
    exact hsettled hvalid (Flood.Reached.spread hlawful h₀.pool hreached hnone htaken hlink (hzero b))
  have hbest : Best feeOf 10000 ((σ.valid s).map Transaction.order).toFinset (φ.state i).2.transactions.keys := by
    refine Best.of_covers ?_ (Pool.card_le (hnode i).2.1) ?_
    · intro k hk
      obtain ⟨tx, rfl, hvalid, htaken⟩ := hheld hk
      obtain ⟨j, hj⟩ := Flood.Reached.origin hlawful h₀.pool hreached htaken
      rw [← hφ.submitted] at hj
      refine List.mem_toFinset.2 (List.mem_map.2 ⟨tx, ?_, rfl⟩)
      exact List.mem_filter.2 ⟨List.mem_map.2 ⟨(j, tx), hj, rfl⟩, hvalid⟩
    · -- it is settled where it was submitted, and from there along the links
      intro k hk
      obtain ⟨tx, htx, rfl⟩ := List.mem_map.1 (List.mem_toFinset.1 hk)
      obtain ⟨hmem, hvalid⟩ := List.mem_filter.1 htx
      obtain ⟨⟨b, u⟩, hb, rfl⟩ := List.mem_map.1 hmem
      rw [hφ.submitted] at hb
      refine links_symm_path hsymm (P := fun j => Covers feeOf 10000 (φ.state j).2.transactions.keys u.order) ?_ (hconn b i)
        (hsettled hvalid (Flood.Reached.given hlawful h₀.pool hreached hb (hzero b)))
      intro j j' hlink hback hcovers
      exact hcovers.transfer (Pool.card_le (hnode j).2.1) (Pool.card_le (hnode j').2.1) (hneighbour j' j hback)
        (hneighbour j j' hlink)
  obtain ⟨seen, hkeeps⟩ := (hnode i).2.1
  intro m
  have hm : m = (φ.state i).2 := hφ.pool i
  rw [hm]
  refine ⟨?_, ?_⟩
  · rw [hkeeps.fees_eq, hbest.ranks]
    rfl
  · intro hfit
    refine Finset.Subset.antisymm hbest.sub ?_
    intro k hk
    by_contra hout
    have hfull := (hbest.left k hk hout).1
    have hlt := Finset.card_lt_card ((Finset.ssubset_iff_of_subset hbest.sub).2 ⟨k, hk, hout⟩)
    omega

end Overlay

end Network

end General

section Witness

open Sample Overlay

def linePeer (i : Fin 3) : PeerId := ⟨List.replicate 32 (UInt8.ofNat i.val), List.length_replicate⟩

theorem find_linePeer : ∀ i, (List.finRange 3).find? (fun j => decide (linePeer j = linePeer i)) = some i := by
  decide +kernel

/-- three engines in a row -/
def line : Overlay (Fin 3) where
  peerId := linePeer
  node peer := (List.finRange 3).find? fun j => decide (linePeer j = peer)
  node_eq_some peer i := by
    constructor
    · intro h
      have hfound := List.find?_some h
      exact of_decide_eq_true hfound
    · rintro rfl
      exact find_linePeer i
  links := ![[1], [0, 2], [1]]
  maxBlocksPerChunk _ _ := some 16

/-- an engine with the sessions of the topology -/
def lineEngine (i : Fin 3) : NodeEngine :=
  { NodeEngine.new .new with
    peers := (line.links i).foldl (fun peers j => peers.insert (line.peerId j) ⟨true, 0⟩) .empty }

def lineStart : GossipNet (Fin 3) := ⟨lineEngine, fun _ => 0, [], [], []⟩

theorem lineStart_start : line.StartAt State.new lineStart := by
  refine ⟨⟨by decide +kernel, ?_, fun _ => ?_, fun _ => rfl, rfl, rfl, rfl⟩, fun _ => rfl, fun _ => rfl⟩
  · intro i h l hl
    cases hl
  · exact (Pool.sound_new 10000 State.new).1

def lineRun (ms : List (GossipMove (Fin 3))) : Option (GossipNet (Fin 3)) := ms.foldlM (line.exec .release) lineStart

theorem reached_of_lineRun {init : GossipNet (Fin 3) → Prop} (hinit : init lineStart) {ms : List (GossipMove (Fin 3))}
    (hclosed : ∀ m ∈ ms, line.Closed lineStart m) {σ : GossipNet (Fin 3)} (h : lineRun ms = some σ) :
    (line.machine .release init).Reached line.Closed σ := by
  suffices hgen : ∀ (ms : List (GossipMove (Fin 3))) (τ : GossipNet (Fin 3)), (∀ m ∈ ms, line.Closed lineStart m) →
      (line.machine .release init).Reached line.Closed τ → ms.foldlM (line.exec .release) τ = some σ →
      (line.machine .release init).Reached line.Closed σ from hgen ms lineStart hclosed (.start hinit) h
  intro ms
  induction ms with
  | nil =>
    intro τ _ hτ hfold
    cases hfold
    exact hτ
  | cons m ms ih =>
    intro τ hclosed hτ hfold
    obtain ⟨τ', hexec, hrest⟩ := Option.bind_eq_some_iff.1 hfold
    exact ih τ' (fun m' hm' => hclosed m' (List.mem_cons_of_mem _ hm')) (hτ.step (hclosed m List.mem_cons_self) hexec) hrest

theorem pooledTx_sized : pooledTx.Sized := trivial

def outsider : PeerId := ⟨List.replicate 32 9, rfl⟩

theorem outsider_apart : line.node outsider = none := by decide +kernel

/-- A transaction comes to the engine in the middle, which announces it. There its block becomes head, then a rival of the
block, and the transaction is submitted and announced again. -/
def lineReverted : List (GossipMove (Fin 3)) :=
  [.input 0 (.localTransactionSubmitted pooledTx), .deliver 0, .input 1 (announce outsider g₁),
    .input 1 (announce outsider k₁), .input 1 (.storageLoaded genesis.hash (some State.new.toBytes)),
    .input 1 (.localTransactionSubmitted pooledTx)]

theorem lineReverted_closed : ∀ m ∈ lineReverted, line.Closed lineStart m := by
  simp only [lineReverted, List.forall_mem_cons]
  exact ⟨pooledTx_sized, trivial, outsider_apart, outsider_apart, trivial, pooledTx_sized,
    fun m hm => absurd hm List.not_mem_nil⟩

theorem lineReverted_facts : ((lineRun lineReverted).any fun σ =>
    decide (σ.heads 1 = 2 ∧ (σ.crossed ++ σ.flying).count (1, 2, announcement pooledTx) = 2)) = true := by
  decide +kernel

/-- the transaction is announced twice over one link, and twice a block became head of the sender -/
theorem gossip_crosses_once_of_line :
    ∃ σ, lineRun lineReverted = some σ ∧
      (σ.heads 1 = 2 ∧ (σ.crossed ++ σ.flying).count (1, 2, announcement pooledTx) = 2) ∧
      (∀ i j frame, (announced frame).isSome = true →
        (σ.crossed ++ σ.flying).count (i, j, frame) ≤ σ.heads i + 1) ∧
      (announcements (σ.crossed ++ σ.flying)).length ≤
        (∑ i, (σ.heads i + 1) * (line.links i).length) * σ.submitted.length := by
  obtain ⟨σ, hσ, hfacts⟩ := (Option.any_eq_true _ _).1 lineReverted_facts
  have hreached := reached_of_lineRun lineStart_start.toStart lineReverted_closed hσ
  exact ⟨σ, hσ, of_decide_eq_true hfacts, gossip_crosses_once hreached⟩

theorem line_connected (i j : Fin 3) : Relation.ReflTransGen (fun i j => j ∈ line.links i) i j := by
  have hhub : ∀ i : Fin 3, i = 1 ∨ (1 ∈ line.links i ∧ i ∈ line.links 1) := by decide +kernel
  refine Relation.ReflTransGen.trans (b := 1) ?_ ?_
  · rcases hhub i with rfl | ⟨hlink, _⟩
    · exact .refl
    · exact .single hlink
  · rcases hhub j with rfl | ⟨_, hlink⟩
    · exact .refl
    · exact .single hlink

/-- A transaction spreads from one end to the other, while the engine in the middle parks a block and the one at the other
end asks it for blocks. -/
def lineQuiet : List (GossipMove (Fin 3)) :=
  [.input 0 (.localTransactionSubmitted pooledTx), .input 1 (announce outsider m₂),
    .input 2 (.importRequested (linePeer 1) 1 40), .deliver 1, .deliver 0, .deliver 0, .deliver 0,
    .input 1 (.storageLoaded m₁.hash none)]

theorem lineQuiet_closed : ∀ m ∈ lineQuiet, line.Closed lineStart m := by
  simp only [lineQuiet, List.forall_mem_cons]
  exact ⟨pooledTx_sized, outsider_apart, trivial, trivial, trivial, trivial, trivial, trivial,
    fun m hm => absurd hm List.not_mem_nil⟩

theorem lineQuiet_facts : ((lineRun lineQuiet).any fun σ =>
    decide ((∀ i, σ.heads i = 0) ∧ announcements σ.flying = [] ∧ σ.crossed.length = 4 ∧
      (σ.engine 2).blockchain.mempool.transactions.len = 1)) = true := by
  decide +kernel

theorem gossip_converges_of_line :
    ∃ σ, lineRun lineQuiet = some σ ∧
      (σ.crossed.length = 4 ∧ (σ.engine 2).blockchain.mempool.transactions.len = 1) ∧
      let m := (σ.engine 2).blockchain.mempool
      (m.getPendingTransactions m.transactions.len).map Transaction.fee =
          Mempool.topFees 10000 (σ.valid State.new) ∧
        (((σ.valid State.new).map Transaction.order).toFinset.card ≤ 10000 →
          m.transactions.keys = ((σ.valid State.new).map Transaction.order).toFinset) := by
  obtain ⟨σ, hσ, hfacts⟩ := (Option.any_eq_true _ _).1 lineQuiet_facts
  obtain ⟨hheads, hquiet, hcrossed, hheld⟩ := of_decide_eq_true hfacts
  have hreached := reached_of_lineRun lineStart_start lineQuiet_closed hσ
  exact ⟨σ, hσ, ⟨hcrossed, hheld⟩,
    gossip_converges (by decide +kernel) line_connected hreached hheads hquiet 2⟩

end Witness

end RustProof
