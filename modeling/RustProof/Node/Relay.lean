/-
What an engine does with a transaction, and what every other input leaves of it (`rp-node/src/node_engine.rs`,
`rp-node/src/mempool.rs`).

An engine judges a transaction by its head state and its mempool (`Pool.take`, the step of `Blockchain::add_transaction` on
the mempool). What it takes it relays to its connected peers other than the source (`relay_transaction`), or broadcasts if it
is a local one (`judged_announce`, `judged_submit`); what it drops it announces to nobody. So head states with mempools are
the nodes of a flood (`Pool.flood`), and a lawful one (`Pool.flood_lawful`).

A step that brings no transaction announces none, and it leaves head state and mempool alone if no block becomes head in it
(`step_rests`). Whether one does is `StepMeets StaysBehind`.
-/
import RustProof.Lib.Flood
import RustProof.Node.BestPaying
import RustProof.Node.Pool
import RustProof.Node.Requests

namespace RustProof

section General

variable [Crypto]

/-! ## The mempool as a node of a flood -/

namespace Pool

/-- `Blockchain::add_transaction` on the mempool: the new mempool, if the transaction is added -/
def take (s : State) (m : Mempool) (tx : Transaction) : Option Mempool :=
  if s.isValidTx tx && (m.submit tx).2.toOption.getD false then some (m.submit tx).1 else none

/-- a mempool of capacity `n` that started empty -/
def Kept (n : ℕ) (m : Mempool) : Prop := ∃ seen, m.Keeps n seen

/-- what `Mempool::add_transaction` can do -/
inductive Submitted (n : ℕ) (m : Mempool) (tx : Transaction) : Prop
  | refused (covers : Covers feeOf n m.transactions.keys tx.order) (result : (m.submit tx).2.toOption.getD false = false)
  | inserted (out : tx.order ∉ m.transactions.keys) (room : m.transactions.keys.card < n)
      (result : (m.submit tx).2 = .ok true) (keys : (m.submit tx).1.transactions.keys = insert tx.order m.transactions.keys)
  | replaced (out : tx.order ∉ m.transactions.keys) (full : m.transactions.keys.card = n)
      (low : UInt64ᵒᵈ ×ₗ Hash) (mem : low ∈ m.transactions.keys)
      (least : ∀ k ∈ m.transactions.keys, feeOf low ≤ feeOf k) (lower : feeOf low < feeOf tx.order)
      (result : (m.submit tx).2 = .ok true)
      (keys : (m.submit tx).1.transactions.keys = insert tx.order (m.transactions.keys.erase low))

theorem submitted_cases {n : ℕ} {m : Mempool} (h : Kept n m) (tx : Transaction) : Submitted n m tx := by
  obtain ⟨seen, hkeeps⟩ := h
  have hmem : tx.order ∈ m.transactions.keys ↔ m.transactions.contains tx.order = true := by
    rw [BTreeMap.mem_keys, BTreeMap.contains_iff]
  by_cases hdup : m.transactions.contains tx.order = true
  · refine .refused (.inl (hmem.2 hdup)) ?_
    rw [Mempool.submit, if_pos hdup]
    rfl
  have hout : tx.order ∉ m.transactions.keys := fun hin => hdup (hmem.1 hin)
  by_cases hroom : m.transactions.len < m.maxSize
  · have hsubmit : m.submit tx = ({ m with transactions := m.transactions.insert tx.order tx }, .ok true) := by
      rw [Mempool.submit, if_neg hdup, if_pos hroom]
    refine .inserted hout ?_ (by rw [hsubmit]) ?_
    · rw [BTreeMap.card_keys, ← hkeeps.size]
      exact hroom
    · rw [hsubmit]
      exact BTreeMap.keys_insert _ _ _
  have hfull : m.transactions.keys.card = n := by
    have hle := hkeeps.best.card
    rw [BTreeMap.card_keys] at hle ⊢
    have hsize := hkeeps.size
    omega
  cases hlast : m.transactions.entries.getLast? with
  | none =>
    have hnil := List.getLast?_eq_none_iff.1 hlast
    refine .refused (.inr ⟨hfull, ?_⟩) ?_
    · intro k hk
      simp [BTreeMap.keys, hnil] at hk
    · rw [Mempool.submit, if_neg hdup, if_neg hroom, hlast]
      rfl
  | some e =>
    obtain ⟨k, lowest⟩ := e
    have hget := (BTreeMap.mem_entries_iff m.transactions k lowest).1 (List.mem_of_getLast? hlast)
    obtain rfl := hkeeps.keyed k lowest hget
    have hleast : ∀ y ∈ m.transactions.keys, lowest.fee ≤ feeOf y := fun y hy =>
      feeOf_antitone (BTreeMap.le_getLast hlast y hy)
    by_cases hfee : tx.fee > lowest.fee
    · have hsubmit : m.submit tx =
          ({ m with transactions := (m.transactions.remove lowest.order).insert tx.order tx }, .ok true) := by
        rw [Mempool.submit, if_neg hdup, if_neg hroom, hlast]
        exact if_pos hfee
      refine .replaced hout hfull lowest.order (BTreeMap.mem_keys.2 ⟨lowest, hget⟩) hleast hfee (by rw [hsubmit]) ?_
      rw [hsubmit]
      dsimp only
      rw [BTreeMap.keys_insert, BTreeMap.keys_remove]
    · refine .refused (.inr ⟨hfull, ?_⟩) ?_
      · intro y hy
        exact (UInt64.not_lt.1 hfee).trans (hleast y hy)
      · rw [Mempool.submit, if_neg hdup, if_neg hroom, hlast]
        dsimp only
        rw [if_neg hfee]
        rfl

theorem card_le {n : ℕ} {m : Mempool} (h : Kept n m) : m.transactions.keys.card ≤ n := by
  obtain ⟨seen, hkeeps⟩ := h
  exact hkeeps.best.card

/-- a transaction that is not taken is invalid, or it is held, or there is no place for it -/
theorem take_eq_none_iff {n : ℕ} {s : State} {m : Mempool} (h : Kept n m) (tx : Transaction) :
    take s m tx = none ↔ s.isValidTx tx = false ∨ Covers feeOf n m.transactions.keys tx.order := by
  unfold take
  by_cases hvalid : s.isValidTx tx = true
  · rw [hvalid, Bool.true_and]
    cases submitted_cases h tx with
    | refused covers result => simp [result, covers]
    | inserted out room result keys =>
      have hnot : ¬ Covers feeOf n m.transactions.keys tx.order := by
        rintro (hin | ⟨hfull, _⟩)
        · exact out hin
        · exact absurd hfull room.ne
      simp [result, hnot, Except.toOption]
    | replaced out full low mem least lower result keys =>
      have hnot : ¬ Covers feeOf n m.transactions.keys tx.order := by
        rintro (hin | ⟨_, hle⟩)
        · exact out hin
        · exact absurd lower (not_lt.2 (hle low mem))
      simp [result, hnot, Except.toOption]
  · simp [hvalid]

theorem take_eq_some {s : State} {m m' : Mempool} {tx : Transaction} (h : take s m tx = some m') :
    s.isValidTx tx = true ∧ (m.submit tx).2.toOption.getD false = true ∧ m' = (m.submit tx).1 := by
  unfold take at h
  split_ifs at h with hcond
  rw [Bool.and_eq_true] at hcond
  cases h
  exact ⟨hcond.1, hcond.2, rfl⟩

/-- the flood of transactions between nodes that are a head state with a mempool -/
def flood {ι : Type} (links : ι → List ι) : Flood ι (State × Mempool) Transaction :=
  ⟨links, fun n tx => (take n.1 n.2 tx).map fun m => (n.1, m)⟩

theorem flood_take_eq_none {ι : Type} {links : ι → List ι} {n : State × Mempool} {tx : Transaction} :
    (flood links).take n tx = none ↔ take n.1 n.2 tx = none := Option.map_eq_none_iff

theorem flood_take_eq_some {ι : Type} {links : ι → List ι} {n n' : State × Mempool} {tx : Transaction}
    (h : (flood links).take n tx = some n') : n'.1 = n.1 ∧ take n.1 n.2 tx = some n'.2 := by
  obtain ⟨m, hm, rfl⟩ := Option.map_eq_some_iff.1 h
  exact ⟨rfl, hm⟩

theorem holds_of_take {s : State} {m m' : Mempool} {tx t : Transaction} (h : take s m tx = some m') (ht : m'.holds t) :
    m.holds t ∨ t = tx := by
  obtain ⟨_, hadded, rfl⟩ := take_eq_some h
  have hmempool : m.addTransaction tx = .ok ((m.submit tx).1, true) := by
    unfold Mempool.addTransaction
    cases hresult : (m.submit tx).2 with
    | error _ =>
      rw [hresult] at hadded
      cases hadded
    | ok added =>
      rw [hresult] at hadded
      obtain rfl : added = true := hadded
      rfl
  exact (Mempool.holds_of_addTransaction hmempool ht).symm

theorem Kept.submit {n : ℕ} {m : Mempool} (h : Kept n m) (tx : Transaction) : Kept n (m.submit tx).1 := by
  obtain ⟨seen, hkeeps⟩ := h
  exact ⟨_, hkeeps.submit tx⟩

theorem Kept.take {n : ℕ} {s : State} {m m' : Mempool} {tx : Transaction} (h : Kept n m)
    (htake : Pool.take s m tx = some m') : Kept n m' := by
  obtain ⟨_, _, rfl⟩ := take_eq_some htake
  exact h.submit tx

/-- a mempool that only lost transactions -/
theorem Kept.of_sub {n : ℕ} {m m' : Mempool} (h : Kept n m) (hsize : m'.maxSize = m.maxSize)
    (hsub : ∀ k tx, m'.transactions.get? k = some tx → m.transactions.get? k = some tx) : Kept n m' := by
  have hcard := card_le h
  obtain ⟨seen, hkeeps⟩ := h
  have hkeys : m'.transactions.keys ⊆ m.transactions.keys := by
    intro k hk
    obtain ⟨tx, htx⟩ := BTreeMap.mem_keys.1 hk
    exact BTreeMap.mem_keys.2 ⟨tx, hsub k tx htx⟩
  refine ⟨m'.transactions.keys, hsize.trans hkeeps.size, ?_, ?_⟩
  · intro k tx hk
    exact hkeeps.keyed k tx (hsub k tx hk)
  · refine Best.of_covers (Finset.Subset.refl _) ((Finset.card_le_card hkeys).trans hcard) ?_
    intro k hk
    exact .inl hk

theorem Kept.removeTransaction {n : ℕ} {m : Mempool} (h : Kept n m) (hash : Hash) : Kept n (m.removeTransaction hash) := by
  refine h.of_sub rfl ?_
  intro k tx hk
  rw [Mempool.removeTransaction, BTreeMap.get?_retain] at hk
  exact (Option.filter_eq_some_iff.1 hk).1

theorem Kept.removeAll {n : ℕ} (txs : List Transaction) {m : Mempool} (h : Kept n m) :
    Kept n (txs.foldl (fun m tx => m.removeTransaction tx.hash) m) := by
  induction txs generalizing m with
  | nil => exact h
  | cons tx txs ih => exact ih (h.removeTransaction tx.hash)

/-- ... and that holds nothing that is invalid in `s` -/
def Sound (n : ℕ) (s : State) (m : Mempool) : Prop := Kept n m ∧ ∀ tx, m.holds tx → s.isValidTx tx = true

theorem sound_new (n : ℕ) (s : State) : Sound n s (.new n) := by
  refine ⟨⟨∅, Mempool.Keeps.new n⟩, ?_⟩
  rintro tx ⟨k, hk⟩
  cases hk

/-- the key of what is held -/
theorem Kept.order_mem {n : ℕ} {m : Mempool} (h : Kept n m) {k : UInt64ᵒᵈ ×ₗ Hash} (hk : k ∈ m.transactions.keys) :
    ∃ tx, m.holds tx ∧ tx.order = k := by
  obtain ⟨seen, hkeeps⟩ := h
  obtain ⟨tx, htx⟩ := BTreeMap.mem_keys.1 hk
  exact ⟨tx, ⟨k, htx⟩, (hkeeps.keyed k tx htx).symm⟩

theorem Sound.take {n : ℕ} {s : State} {m m' : Mempool} {tx : Transaction} (h : Sound n s m)
    (htake : Pool.take s m tx = some m') : Sound n s m' := by
  obtain ⟨hm, hvalid⟩ := h
  refine ⟨hm.take htake, ?_⟩
  · intro t ht
    rcases holds_of_take htake ht with hold | rfl
    · exact hvalid t hold
    · exact (take_eq_some htake).1

/-- what is taken is held -/
theorem covers_of_take {n : ℕ} {s : State} {m m' : Mempool} {tx : Transaction} (h : Kept n m)
    (htake : Pool.take s m tx = some m') : Covers feeOf n m'.transactions.keys tx.order := by
  obtain ⟨_, hadded, rfl⟩ := take_eq_some htake
  refine .inl ?_
  cases submitted_cases h tx with
  | refused covers result =>
    rw [result] at hadded
    cases hadded
  | inserted out room result keys =>
    rw [keys]
    exact Finset.mem_insert_self _ _
  | replaced out full low mem least lower result keys =>
    rw [keys]
    exact Finset.mem_insert_self _ _

/-- where there is no place for a transaction there is none after another one is taken -/
theorem covers_take {n : ℕ} {s : State} {m m' : Mempool} {tx u : Transaction} (h : Kept n m)
    (hcovers : Covers feeOf n m.transactions.keys tx.order) (htake : Pool.take s m u = some m') :
    Covers feeOf n m'.transactions.keys tx.order := by
  obtain ⟨_, hadded, rfl⟩ := take_eq_some htake
  cases submitted_cases h u with
  | refused covers result =>
    rw [result] at hadded
    cases hadded
  | inserted out room result keys =>
    rw [keys]
    exact hcovers.insert room
  | replaced out full low mem least lower result keys =>
    rw [keys]
    exact hcovers.replace full out mem least lower

theorem flood_lawful {ι : Type} (n : ℕ) {links : ι → List ι} (hnodup : ∀ i, (links i).Nodup) :
    (flood links).Lawful fun node => Kept n node.2 := by
  refine ⟨hnodup, ?_, ?_, ?_⟩
  · intro node tx node' hm htake
    exact hm.take (flood_take_eq_some htake).2
  · intro node tx node' hm htake
    obtain ⟨_, htake⟩ := flood_take_eq_some htake
    exact flood_take_eq_none.2 ((take_eq_none_iff (hm.take htake) tx).2 (.inr (covers_of_take hm htake)))
  · intro node tx u node' hm hdrop htake
    obtain ⟨hstate, htake⟩ := flood_take_eq_some htake
    refine flood_take_eq_none.2 ((take_eq_none_iff (hm.take htake) tx).2 ?_)
    rw [hstate]
    refine ((take_eq_none_iff hm tx).1 (flood_take_eq_none.1 hdrop)).imp_right ?_
    intro hcovers
    exact covers_take hm hcovers htake

end Pool

/-! ## Announcements -/

/-- the frame that announces a transaction -/
def announcement (tx : Transaction) : Frame := (NetworkMessage.announceRequest (.transaction tx)).toBytes

/-- the transaction that a frame announces -/
def announced (frame : Frame) : Option Transaction :=
  match NetworkMessage.fromBytes frame with
  | .ok (.announceRequest ⟨.newTransaction tx⟩) => some tx
  | _ => none

theorem announced_eq_some {frame : Frame} {tx : Transaction} (h : announced frame = some tx) :
    NetworkMessage.fromBytes frame = .ok (.announceRequest ⟨.newTransaction tx⟩) := by
  unfold announced at h
  split at h
  · rename_i tx' hframe
    cases h
    exact hframe
  · cases h

theorem announced_sized {frame : Frame} {tx : Transaction} (h : announced frame = some tx) : tx.Sized :=
  fromBytes_sized (announced_eq_some h)

theorem announced_announcement {tx : Transaction} (h : tx.Sized) : announced (announcement tx) = some tx := by
  have hround := fromBytes_toBytes_message (m := .announceRequest (.transaction tx)) h []
  rw [List.append_nil] at hround
  unfold announced announcement
  rw [hround]
  rfl

/-- a message of another kind announces nothing -/
theorem announced_of_tag {m : NetworkMessage} (h : m.tag ≠ 0) : announced m.toBytes = none := by
  unfold announced
  split
  · rename_i tx hframe
    exact absurd (fromBytes_tag hframe).symm h
  · rfl

/-- the transaction that an input brings -/
def NodeInput.transaction : NodeInput → Option Transaction
  | .localTransactionSubmitted tx => some tx
  | .frameReceived _ frame => announced frame
  | _ => none

namespace NodeEngine

/-- the peers that a transaction is relayed to, if none of them is its source -/
def connectedPeers (e : NodeEngine) : List PeerId := (e.peers.entries.filter fun p => p.2.connected).map Prod.fst

theorem relayTransaction_eq (e : NodeEngine) (source : PeerId) (tx : Transaction) :
    e.relayTransaction source tx =
      (e.connectedPeers.filter fun peer => decide (peer ≠ source)).map fun peer => .sendFrame peer (announcement tx) := by
  unfold relayTransaction connectedPeers
  rw [List.filter_map, List.filter_filter, List.map_map]
  refine congrArg (List.map fun p : PeerId × PeerState => NodeAction.sendFrame p.1 (announcement tx)) (List.filter_congr ?_)
  intro p _
  simp

/-- `add_transaction` takes the transaction or leaves the mempool as it is -/
theorem addTransaction_take (bc : Blockchain) (tx : Transaction) :
    (∃ m, Pool.take bc.state bc.mempool tx = some m ∧ bc.addTransaction tx = .ok ({ bc with mempool := m }, true)) ∨
      (Pool.take bc.state bc.mempool tx = none ∧
        (bc.addTransaction tx = .ok (bc, false) ∨ ∃ error, bc.addTransaction tx = .error error)) := by
  unfold Blockchain.addTransaction Pool.take
  by_cases hvalid : bc.state.isValidTx tx = true
  · rw [hvalid, if_pos rfl, Bool.true_and, Mempool.addTransaction]
    cases hresult : (bc.mempool.submit tx).2 with
    | error error => exact .inr ⟨rfl, .inr ⟨error, rfl⟩⟩
    | ok added =>
      cases added with
      | true => exact .inl ⟨_, rfl, rfl⟩
      | false =>
        have hsame : (bc.mempool.submit tx).1 = bc.mempool := Mempool.submit_eq_self (by rw [hresult]; simp)
        refine .inr ⟨rfl, .inl ?_⟩
        rw [hsame]
        rfl
  · rw [if_neg hvalid, Bool.eq_false_iff.2 hvalid]
    exact .inr ⟨rfl, .inr ⟨_, rfl⟩⟩

/-- an action that announces no transaction to other engines -/
def Silent : NodeAction → Prop
  | .sendFrame _ frame | .broadcastFrame frame => announced frame = none
  | _ => True

/-- what an engine does with a transaction, announced or local: it takes it and relays it, or it drops it -/
inductive Judged (e : NodeEngine) (tx : Transaction) (relay : List NodeAction) : NodeEngine × List NodeAction → Prop
  | taken (m : Mempool) (take : Pool.take e.blockchain.state e.blockchain.mempool tx = some m) :
      Judged e tx relay ({ e with blockchain := { e.blockchain with mempool := m } }, relay)
  | dropped (take : Pool.take e.blockchain.state e.blockchain.mempool tx = none) (actions : List NodeAction)
      (silent : ∀ a ∈ actions, Silent a) : Judged e tx relay (e, actions)

theorem judged_submit (e : NodeEngine) (tx : Transaction) :
    Judged e tx [.broadcastFrame (announcement tx)] (e.submitTransaction tx) := by
  unfold submitTransaction
  rcases addTransaction_take e.blockchain tx with ⟨m, htake, hadd⟩ | ⟨htake, hadd | ⟨error, hadd⟩⟩
  · rw [hadd]
    exact .taken m htake
  · rw [hadd]
    exact .dropped htake [] fun a ha => absurd ha List.not_mem_nil
  · rw [hadd]
    refine .dropped htake _ ?_
    intro a ha
    rw [List.mem_singleton.1 ha]
    exact trivial

theorem judged_announce (e : NodeEngine) (source : PeerId) (tx : Transaction) :
    Judged e tx (e.relayTransaction source tx) (e.announceTransaction source tx) := by
  unfold announceTransaction
  rcases addTransaction_take e.blockchain tx with ⟨m, htake, hadd⟩ | ⟨htake, hadd | ⟨error, hadd⟩⟩
  · rw [hadd]
    exact .taken m htake
  · rw [hadd]
    exact .dropped htake [] fun a ha => absurd ha List.not_mem_nil
  · rw [hadd]
    refine .dropped htake _ ?_
    intro a ha
    rw [List.mem_singleton.1 ha]
    exact trivial

theorem handle_announced {ck : OverflowChecks} {frame : Frame} {tx : Transaction} (h : announced frame = some tx)
    (e : NodeEngine) (peer : PeerId) : e.handle ck (.frameReceived peer frame) = .ok (e.announceTransaction peer tx) := by
  unfold handle
  dsimp only
  rw [announced_eq_some h]
  rfl

theorem syncWakeAction_silent (e : NodeEngine) :
    (∃ at?, e.syncWakeAction.1 = { e with scheduledWakeAtMs := at? }) ∧ ∀ a ∈ e.syncWakeAction.2, Silent a := by
  unfold syncWakeAction
  split_ifs
  · exact ⟨⟨e.scheduledWakeAtMs, rfl⟩, fun a ha => absurd ha List.not_mem_nil⟩
  · refine ⟨⟨e.nextWakeAtMs, rfl⟩, ?_⟩
    intro a ha
    dsimp only at ha
    cases hnext : e.nextWakeAtMs with
    | none =>
      rw [hnext] at ha
      rw [List.mem_singleton.1 ha]
      exact trivial
    | some atMs =>
      rw [hnext] at ha
      rw [List.mem_singleton.1 ha]
      exact trivial

/-! ## Steps that bring no transaction -/

/-- the block does not become the head -/
def StaysBehind (e : NodeEngine) (b : Block) : Prop :=
  ∀ latest, e.blockchain.getLatestBlock = .ok latest → shouldReplaceHead b.hash b latest e.blockchain.headHash = false

instance decidableStaysBehind (e : NodeEngine) (b : Block) : Decidable (StaysBehind e b) :=
  decidableOfOk e.blockchain.getLatestBlock fun latest => shouldReplaceHead b.hash b latest e.blockchain.headHash = false

theorem becameHead_of_staysBehind {ck : OverflowChecks} {e : NodeEngine} {b : Block} {s : State} {bc : Blockchain}
    {imported : ImportedBlock} (h : StaysBehind e b) (hadd : e.blockchain.addBlock ck b s = .ok (.ok (bc, imported))) :
    imported.becameHead = false := by
  obtain ⟨latest, hlatest, hchoice⟩ := (Blockchain.addBlock_ok hadd).choice
  rw [hchoice]
  rcases Blockchain.blockAfter_cases hlatest with hstored | ⟨_, hhash, rfl⟩
  · exact h latest (Blockchain.getLatestBlock_ok_iff.2 hstored)
  · -- a block does not replace itself
    rw [← Bool.not_eq_true, shouldReplaceHead_iff, hhash]
    exact lt_irrefl _

/-- an input that brings a transaction brings no block -/
theorem stepMeets_of_transaction {C : NodeEngine → Block → Prop} {ck : OverflowChecks} {input : NodeInput} {tx : Transaction}
    (h : input.transaction = some tx) (e : NodeEngine) : StepMeets C ck e input := by
  cases input with
  | localTransactionSubmitted u => exact trivial
  | frameReceived peer frame => simp only [StepMeets, announced_eq_some h]
  | _ => cases h

/-- what a part of a step that brings no transaction does to the engine `e₀` it started from; under `still` no block becomes
head -/
structure Rests (still : Prop) (e₀ e : NodeEngine) (acts : List NodeAction) : Prop where
  silent : ∀ a ∈ acts, Silent a
  parked : Parked (fun _ => True) e
  kept : Pool.Kept 10000 e.blockchain.mempool
  same : still → e.blockchain.state = e₀.blockchain.state ∧ e.blockchain.mempool = e₀.blockchain.mempool

theorem Rests.refl {still : Prop} {e : NodeEngine} (hparked : Parked (fun _ => True) e)
    (hkept : Pool.Kept 10000 e.blockchain.mempool) : Rests still e e [] :=
  ⟨fun _ ha => absurd ha List.not_mem_nil, hparked, hkept, fun _ => ⟨rfl, rfl⟩⟩

/-- nothing but the ledger and the parked blocks is asked of the engine -/
theorem Rests.of_same {still : Prop} {e₀ e e' : NodeEngine} {acts : List NodeAction} (h : Rests still e₀ e acts)
    (hbc : e'.blockchain = e.blockchain) (hpending : e'.pendingBlocks = e.pendingBlocks) : Rests still e₀ e' acts := by
  refine ⟨h.silent, ?_, ?_, ?_⟩
  · intro x l hl
    rw [hpending] at hl
    exact h.parked x l hl
  · rw [hbc]
    exact h.kept
  · rw [hbc]
    exact h.same

theorem Rests.append {still : Prop} {e₀ e : NodeEngine} {acts acts' : List NodeAction} (h : Rests still e₀ e acts)
    (hacts : ∀ a ∈ acts', Silent a) : Rests still e₀ e (acts ++ acts') := by
  refine ⟨?_, h.parked, h.kept, h.same⟩
  intro a ha
  exact (List.mem_append.1 ha).elim (h.silent a) (hacts a)

/-- ... and one more action -/
theorem Rests.note {still : Prop} {e₀ e : NodeEngine} {acts : List NodeAction} (h : Rests still e₀ e acts) {a : NodeAction}
    (ha : Silent a) : Rests still e₀ e (acts ++ [a]) := by
  refine h.append ?_
  intro x hx
  rw [List.mem_singleton.1 hx]
  exact ha

theorem importRule_rests {ck : OverflowChecks} {C : NodeEngine → Block → Prop} {still : Prop} (e₀ : NodeEngine)
    (hC : ∀ e b, still → C e b → StaysBehind e b) :
    ImportRule ck C (fun _ => True) (fun _ _ => True) (fun _ => True) (fun _ e log => Rests still e₀ e log)
      (fun _ _ e log => Rests still e₀ e log) where
  note h := h.note trivial
  report h := h.note trivial
  park := by
    intro l e log peer b h _ _
    have hnote := h.note (a := .loadSnapshot b.previousHash) trivial
    exact ⟨hnote.silent, h.parked.park peer trivial, h.kept, h.same⟩
  direct h _ _ := h
  head _ := trivial
  skip h _ := h
  take h hparked := by
    refine ⟨⟨h.silent, h.parked.take _, h.kept, h.same⟩, ?_⟩
    intro p hp
    exact h.parked _ _ hparked p hp
  add := by
    intro l e log b s bc imported h _ _ hc hadd
    have hmempool := addBlock_mempool hadd
    have hafter : Rests still e₀ { e with blockchain := bc }
        (log ++ [.persistBlock b, .persistSnapshot b.hash imported.nextState.toBytes]) := by
      refine ⟨?_, h.parked, ?_, ?_⟩
      · intro a ha
        rcases List.mem_append.1 ha with ha | ha
        · exact h.silent a ha
        · rcases List.mem_cons.1 ha with rfl | ha
          · exact trivial
          · rw [List.mem_singleton.1 ha]
            exact trivial
      · show Pool.Kept 10000 bc.mempool
        rw [hmempool]
        split_ifs
        · exact h.kept.removeAll _
        · exact h.kept
      · intro hstill
        have hbecame := becameHead_of_staysBehind (hC e b hstill hc) hadd
        have hstate := (Blockchain.addBlock_ok hadd).state
        rw [hbecame, if_neg Bool.false_ne_true] at hstate hmempool
        show bc.state = _ ∧ bc.mempool = _
        rw [hstate, hmempool]
        exact h.same hstill
    exact ⟨trivial, hafter, fun _ => hafter⟩
  refuse h _ _ _ := h.note trivial
  addFault _ _ _ _ := trivial

theorem continueRequests_silent (n : UInt64) (requests : List PendingRequest) (e : NodeEngine) :
    (continueRequests n requests e).1.blockchain = e.blockchain ∧
      (continueRequests n requests e).1.pendingBlocks = e.pendingBlocks ∧
      ∀ a ∈ (continueRequests n requests e).2, Silent a := by
  induction requests generalizing e with
  | nil => exact ⟨rfl, rfl, fun a ha => absurd ha List.not_mem_nil⟩
  | cons r requests ih =>
    rw [continueRequests]
    by_cases hn : n = 0
    · have hskip : e.continueRequest r n = (e, []) := by rw [continueRequest, if_pos hn]
      rw [hskip]
      exact ih e
    · obtain ⟨next, _, heq⟩ := continueRequest_eq e r hn
      rw [heq]
      obtain ⟨hbc, hpending, hacts⟩ := ih { e with pendingRequests := e.pendingRequests ++ [next] }
      refine ⟨hbc, hpending, ?_⟩
      intro a ha
      rcases List.mem_append.1 ha with ha | ha
      · rw [List.mem_singleton.1 ha]
        exact trivial
      · exact hacts a ha

section Rest

variable {ck : OverflowChecks} {C : NodeEngine → Block → Prop} {still : Prop} {e e' : NodeEngine} {acts : List NodeAction}

theorem handleSyncResponse_rests (hC : ∀ e b, still → C e b → StaysBehind e b) (hparked : Parked (fun _ => True) e)
    (hkept : Pool.Kept 10000 e.blockchain.mempool) {peer : PeerId} {response : SyncResponse}
    (hmeets : IngestAllMeet C ck peer response.blocks
      { e with pendingRequests := e.pendingRequests.filter fun request => decide (request.peer ≠ peer) })
    (h : e.handleSyncResponse ck peer response = .ok (e', acts)) : Rests still e e' acts := by
  unfold handleSyncResponse at h
  obtain ⟨⟨e₁, acts₁⟩, hingest, h⟩ := bind_ok h
  have hstart : Rests still e
      { e with pendingRequests := e.pendingRequests.filter fun request => decide (request.peer ≠ peer) } [] :=
    (Rests.refl hparked hkept).of_same rfl rfl
  have hrests : Rests still e e₁ acts₁ := by
    have hsafe := (importRule_rests e hC).ingestBlocks (l := []) peer response.blocks _ _ hstart (fun _ _ => trivial) hmeets
    rw [hingest] at hsafe
    exact hsafe
  -- an answer without any action is acknowledged
  have hack : ∀ {e' : NodeEngine} {acts : List NodeAction}, Rests still e e' acts →
      Rests still e e' (if acts.isEmpty then [.frameReceived peer] else acts) := by
    intro e' acts h
    cases acts with
    | nil => exact h.note (a := .frameReceived peer) trivial
    | cons a acts => exact h
  cases hn : response.nextHeight with
  | none =>
    rw [hn] at h
    cases h
    exact hack hrests
  | some n =>
    rw [hn] at h
    cases h
    obtain ⟨hbc, hpending, hsilent⟩ := continueRequests_silent n
      (e.pendingRequests.filter fun request => decide (request.peer = peer)) e₁
    exact hack ((hrests.of_same hbc hpending).append hsilent)

theorem handleMessage_rests (hC : ∀ e b, still → C e b → StaysBehind e b) (hparked : Parked (fun _ => True) e)
    (hkept : Pool.Kept 10000 e.blockchain.mempool) {peer : PeerId} {frame : Frame} {message : NetworkMessage}
    (hframe : NetworkMessage.fromBytes frame = .ok message) (hno : announced frame = none)
    (hmeets : StepMeets C ck e (.frameReceived peer frame)) (h : e.handleMessage ck peer message = .ok (e', acts)) :
    Rests still e e' acts := by
  have hrefl : Rests still e e [] := Rests.refl hparked hkept
  rw [StepMeets, hframe] at hmeets
  cases message with
  | announceRequest request =>
    obtain ⟨kind⟩ := request
    cases kind with
    | newBlock block =>
      have hsafe := (importRule_rests e hC).ingestBlock (l := []) peer hrefl trivial hmeets
      change Safe _ _ (e.handleMessage ck peer (.announceRequest ⟨.newBlock block⟩)) at hsafe
      rw [h] at hsafe
      exact hsafe
    | newTransaction tx =>
      simp only [announced, hframe] at hno
      cases hno
  | syncRequest request =>
    obtain ⟨response, _, h⟩ := bind_ok h
    cases h
    exact hrefl.note (announced_of_tag (m := .syncResponse response) (by simp [NetworkMessage.tag]))
  | syncResponse response => exact handleSyncResponse_rests hC hparked hkept hmeets h
  | announceResponse response =>
    cases h
    exact hrefl.note trivial

theorem handleStorageLoaded_rests (hC : ∀ e b, still → C e b → StaysBehind e b) (hparked : Parked (fun _ => True) e)
    (hkept : Pool.Kept 10000 e.blockchain.mempool) {blockHash : Hash} {stateBytes : Option (List UInt8)}
    (hmeets : StepMeets C ck e (.storageLoaded blockHash stateBytes))
    (h : e.handleStorageLoaded ck blockHash stateBytes = .ok (e', acts)) : Rests still e e' acts := by
  have hrefl : Rests still e e [] := Rests.refl hparked hkept
  unfold handleStorageLoaded at h
  split at h
  · cases h
    exact hrefl.note trivial
  rename_i parked hfound
  split at h
  · rename_i bytes
    split at h
    · cases h
    · cases h
      exact hrefl.note trivial
    · rename_i state hdecode
      have hsafe := (importRule_rests e hC).importParkedBlocks (l := []) (s := state) hrefl trivial (hmeets state hdecode)
      rw [h] at hsafe
      exact hsafe
  · cases h
    refine Rests.of_same (hrefl.append ?_) rfl rfl
    intro a ha
    rcases List.mem_cons.1 ha with rfl | ha
    · exact trivial
    · rw [List.mem_singleton.1 ha]
      exact trivial

theorem handle_rests_of (hC : ∀ e b, still → C e b → StaysBehind e b) (hparked : Parked (fun _ => True) e)
    (hkept : Pool.Kept 10000 e.blockchain.mempool) {input : NodeInput} (hno : input.transaction = none)
    (hmeets : StepMeets C ck e input) (h : e.handle ck input = .ok (e', acts)) : Rests still e e' acts := by
  have hrefl : Rests still e e [] := Rests.refl hparked hkept
  cases input with
  | tick nowMs =>
    cases h
    exact hrefl.of_same rfl rfl
  | peerConnected peer =>
    obtain ⟨latest, _, h⟩ := bind_ok h
    cases h
    refine Rests.of_same (hrefl.append ?_) rfl rfl
    intro a ha
    rcases List.mem_cons.1 ha with rfl | ha
    · exact trivial
    · rw [List.mem_singleton.1 ha]
      exact trivial
  | peerDisconnected peer =>
    cases h
    refine Rests.of_same (hrefl.append ?_) rfl rfl
    intro a ha
    rw [List.mem_singleton.1 ha]
    exact trivial
  | frameReceived peer frame =>
    simp only [handle] at h
    split at h
    · rename_i message hframe
      exact handleMessage_rests hC hparked hkept hframe hno hmeets h
    · cases h
      exact hrefl.note trivial
  | localTransactionSubmitted tx => cases hno
  | storageLoaded blockHash stateBytes => exact handleStorageLoaded_rests hC hparked hkept hmeets h
  | persistCompleted persistType =>
    cases h
    exact hrefl.note trivial
  | importRequested peer fromHeight toHeight =>
    cases h
    refine Rests.of_same (hrefl.append ?_) rfl rfl
    intro a ha
    rw [List.mem_singleton.1 ha]
    exact trivial

/-- a step that brings no transaction announces none, and it leaves state and mempool alone if no block becomes head -/
theorem step_rests (hparked : Parked (fun _ => True) e) (hkept : Pool.Kept 10000 e.blockchain.mempool) {input : NodeInput}
    (hno : input.transaction = none) (h : e.step ck input = .ok (e', acts)) :
    Rests (StepMeets StaysBehind ck e input) e e' acts := by
  obtain ⟨⟨e₁, acts₁⟩, hhandle, h⟩ := bind_ok h
  have hrests : Rests (StepMeets StaysBehind ck e input) e e₁ acts₁ := by
    by_cases hstill : StepMeets StaysBehind ck e input
    · exact handle_rests_of (fun _ _ _ hc => hc) hparked hkept hno hstill hhandle
    · have hmeets : StepMeets (fun _ _ => True) ck e input := stepMeets_of_forall (fun _ _ => trivial) _ _
      refine handle_rests_of ?_ hparked hkept hno hmeets hhandle
      intro _ _ hcontra
      exact absurd hcontra hstill
  obtain ⟨⟨wakeAt, hsync⟩, hsilent⟩ := e₁.syncWakeAction_silent
  obtain ⟨rfl, rfl⟩ : e₁.syncWakeAction.1 = e' ∧ acts₁ ++ e₁.syncWakeAction.2 = acts := Prod.mk.inj (Except.ok.inj h)
  rw [hsync]
  exact Rests.of_same (hrests.append hsilent) rfl rfl

end Rest

end NodeEngine

end General

end RustProof
