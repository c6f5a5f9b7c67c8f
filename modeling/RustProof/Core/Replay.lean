/-
Replay protection: the sequence numbers of an account along a chain.

`chainTxs` lists the transactions of a chain in the order they are applied, within a block and across blocks. The nonce
of an account is the position of its next transaction: a step that is not its own leaves it (`opStep_nonce_frame`), its
own step carries it and raises it by one (`opStep_nonce_own`).

Results, for every chain of accepted blocks along which the nonces stay below 2^64:
- `sequence_numbers_consecutive`: the transactions of an account carry the consecutive numbers from its first nonce on, its
  last nonce is that plus their count, and, SHA-256 not colliding on the chain's transactions, no transaction hash occurs
  twice.
-/
import RustProof.Core.Authorisation

namespace RustProof

section Ledger

variable [Crypto]

/-! ## The transactions of a chain -/

def chainTxs (bs : List Block) : List Transaction := bs.flatMap Block.transactions

/-- the transactions of `txs` sent by `k`, in order -/
def sentBy (k : PublicKeyBytes) (txs : List Transaction) : List Transaction :=
  txs.filter fun t => decide (verifyingKeyToBytes t.sender = k)

def LedgerOp.transaction? : LedgerOp → Option Transaction
  | .tx t _ => some t
  | .slash _ => none

theorem ops_transactions (b : Block) : b.ops.filterMap LedgerOp.transaction? = b.transactions := by
  have htx : ∀ l : List Transaction,
      (l.map fun t => LedgerOp.tx t b.slot).filterMap LedgerOp.transaction? = l := by
    intro l
    rw [List.filterMap_map]
    exact List.filterMap_some
  have hsl : ∀ l : List SlashProof, (l.map LedgerOp.slash).filterMap LedgerOp.transaction? = [] := by
    intro l
    rw [List.filterMap_map]
    exact List.filterMap_eq_nil_iff.2 fun p _ => rfl
  rw [Block.ops, List.filterMap_append, htx, hsl, List.append_nil]

theorem chainOps_transactions (bs : List Block) :
    (chainOps bs).filterMap LedgerOp.transaction? = chainTxs bs := by
  induction bs with
  | nil => rfl
  | cons b bs ih =>
    change (b.ops ++ chainOps bs).filterMap LedgerOp.transaction? = b.transactions ++ chainTxs bs
    rw [List.filterMap_append, ops_transactions, ih]

theorem sentBy_cons_self {k : PublicKeyBytes} {t : Transaction} (txs : List Transaction)
    (h : verifyingKeyToBytes t.sender = k) : sentBy k (t :: txs) = t :: sentBy k txs := by
  simp [sentBy, h]

theorem sentBy_cons_ne {k : PublicKeyBytes} {t : Transaction} (txs : List Transaction)
    (h : verifyingKeyToBytes t.sender ≠ k) : sentBy k (t :: txs) = sentBy k txs := by
  simp [sentBy, h]

/-! ## One operation -/

/-- an accepted transaction carries its sender's nonce and raises it -/
theorem opStep_nonce_own {ck : OverflowChecks} {s s' : State} {t : Transaction} {slot : UInt64} {k : PublicKeyBytes}
    (h : OpStep ck s (.tx t slot) s') (hk : verifyingKeyToBytes t.sender = k) :
    t.sequence = s.nonces.getD k 0 ∧ s'.nonces.getD k 0 = s.nonces.getD k 0 + 1 := by
  have heff := h.eq_opEffect
  cases h with
  | tx hv _ =>
    subst hk
    refine ⟨((s.isValidTx_iff t).1 hv).2.1, ?_⟩
    rw [heff]
    simp only [State.opEffect, State.effect_nonces, State.bump, BTreeMap.getD_insert_self]

/-! ## A run of operations -/

theorem opRun_sequence {ck : OverflowChecks} {s s' : State} {ops : List LedgerOp} {k : PublicKeyBytes} {n : ℕ}
    (h : OpRun ck s ops s') (hn : (sentBy k (ops.filterMap LedgerOp.transaction?)).length = n)
    (hb : (s.nonces.getD k 0).toNat + n < 2 ^ 64) :
    (sentBy k (ops.filterMap LedgerOp.transaction?)).map (fun t => t.sequence.toNat) =
        List.range' (s.nonces.getD k 0).toNat n ∧
      (s'.nonces.getD k 0).toNat = (s.nonces.getD k 0).toNat + n := by
  induction h generalizing n with
  | nil s => subst hn; exact ⟨rfl, rfl⟩
  | @cons s s1 s2 op ops hd tl ih =>
    cases op with
    | slash p =>
      have hframe := opStep_nonce_frame (k := k) hd id
      rw [← hframe] at hb ⊢
      exact ih hn hb
    | tx t slot =>
      have hlist : (LedgerOp.tx t slot :: ops).filterMap LedgerOp.transaction? =
          t :: ops.filterMap LedgerOp.transaction? := rfl
      by_cases hk : verifyingKeyToBytes t.sender = k
      · obtain ⟨hseq, hnext⟩ := opStep_nonce_own hd hk
        rw [hlist, sentBy_cons_self _ hk] at hn ⊢
        obtain ⟨n, rfl⟩ : ∃ m, n = m + 1 := ⟨_, hn.symm⟩
        have hlt : (s.nonces.getD k 0).toNat + (1 : UInt64).toNat < 2 ^ 64 := by
          have : (1 : UInt64).toNat = 1 := rfl
          omega
        have hsucc : (s1.nonces.getD k 0).toNat = (s.nonces.getD k 0).toNat + 1 := by
          rw [hnext, toNat_add_of_lt hlt]; rfl
        obtain ⟨i1, i2⟩ := ih (Nat.succ.inj hn) (by omega)
        refine ⟨?_, by omega⟩
        rw [List.map_cons, i1, hsucc, hseq]
        rfl
      · have hframe := opStep_nonce_frame (k := k) hd hk
        rw [hlist, sentBy_cons_ne _ hk] at hn ⊢
        rw [← hframe] at hb ⊢
        exact ih hn hb

/-! ## No transaction twice -/

/-- sender and sequence number can be read off the canonical bytes, whatever the data between them -/
theorem Transaction.sender_sequence_of_toBytes {t u : Transaction} (h : t.toBytes = u.toBytes) :
    t.sender = u.sender ∧ t.sequence = u.sequence := by
  obtain ⟨sender, data, sequence, fee, sig⟩ := t
  obtain ⟨sender', data', sequence', fee', sig'⟩ := u
  simp only [Transaction.toBytes] at h
  obtain ⟨rfl, h1⟩ := keyBytes_append_inj h
  -- the data has no fixed length, so the numbers are read from the end
  obtain ⟨-, h2⟩ := List.append_inj' h1 (by simp)
  exact ⟨rfl, (u64ToBe_append_inj h2).1⟩

/-- sender and sequence number, which no two transactions of a chain share -/
def Transaction.ticket (t : Transaction) : PublicKeyBytes × UInt64 := (verifyingKeyToBytes t.sender, t.sequence)

theorem tickets_nodup {txs : List Transaction} (h : ∀ k, ((sentBy k txs).map fun t => t.sequence.toNat).Nodup) :
    (txs.map Transaction.ticket).Nodup := by
  induction txs with
  | nil => exact List.nodup_nil
  | cons t txs ih =>
    rw [List.map_cons, List.nodup_cons]
    constructor
    · intro hmem
      obtain ⟨u, hu, heq⟩ := List.mem_map.1 hmem
      obtain ⟨hsender, hseq⟩ := Prod.mk.inj heq
      have hown := h (verifyingKeyToBytes t.sender)
      rw [sentBy_cons_self _ rfl, List.map_cons, List.nodup_cons] at hown
      refine hown.1 (List.mem_map.2 ⟨u, ?_, by rw [hseq]⟩)
      exact List.mem_filter.2 ⟨hu, decide_eq_true hsender⟩
    · refine ih fun k => ?_
      by_cases hk : verifyingKeyToBytes t.sender = k
      · have hown := h k
        rw [sentBy_cons_self _ hk, List.map_cons, List.nodup_cons] at hown
        exact hown.2
      · have hother := h k
        rwa [sentBy_cons_ne _ hk] at hother

/-- SHA-256 has no collision among the canonical bytes of these transactions -/
def NoTxCollision (txs : List Transaction) : Prop := ∀ t ∈ txs, ∀ u ∈ txs, t.hash = u.hash → t.toBytes = u.toBytes

theorem hashes_nodup {txs : List Transaction} (hc : NoTxCollision txs) (h : (txs.map Transaction.ticket).Nodup) :
    (txs.map Transaction.hash).Nodup := by
  rw [List.Nodup, List.pairwise_map] at h ⊢
  refine h.imp_of_mem fun {t u} ht hu hne heq => hne ?_
  obtain ⟨h1, h2⟩ := Transaction.sender_sequence_of_toBytes (hc t ht u hu heq)
  simp only [Transaction.ticket, h1, h2]

/-- **Replay protection over whole chains.** Along any chain of accepted blocks on which the nonces stay below 2^64: the
transactions sent by `k`, in chain order, carry exactly the consecutive sequence numbers from `k`'s first nonce on; `k`'s
last nonce is its first plus their count; and no transaction hash occurs twice, unless SHA-256 collides on the chain. -/
theorem sequence_numbers_consecutive (ck : OverflowChecks) (parent : Block) (s0 s' : State) (bs : List Block)
    (h : replay ck parent s0 bs = .ok (.ok s'))
    (hb : ∀ k, (s0.nonces.getD k 0).toNat + (sentBy k (chainTxs bs)).length < 2 ^ 64) :
    (∀ k, (sentBy k (chainTxs bs)).map (fun t => t.sequence.toNat) =
        List.range' (s0.nonces.getD k 0).toNat (sentBy k (chainTxs bs)).length) ∧
    (∀ k, (s'.nonces.getD k 0).toNat = (s0.nonces.getD k 0).toNat + (sentBy k (chainTxs bs)).length) ∧
    (NoTxCollision (chainTxs bs) → ((chainTxs bs).map Transaction.hash).Nodup) := by
  have hrun := replay_ops h
  have hseq := fun k => opRun_sequence (k := k) hrun rfl (by rw [chainOps_transactions]; exact hb k)
  simp only [chainOps_transactions] at hseq
  refine ⟨fun k => (hseq k).1, fun k => (hseq k).2, fun hc => hashes_nodup hc (tickets_nodup fun k => ?_)⟩
  rw [(hseq k).1]
  exact List.nodup_range'

end Ledger

section Witness

open Sample

theorem sequence_numbers_of_sample :
    ((sentBy (key 2) (chainTxs [block₁, block₂])).map fun t => t.sequence.toNat) = [0, 1, 2, 3, 4] ∧
      (final.nonces.getD (key 2) 0).toNat = 5 ∧ ((chainTxs [block₁, block₂]).map Transaction.hash).Nodup := by
  have hlen : ∀ k, (sentBy k (chainTxs [block₁, block₂])).length ≤ 5 := fun k => List.length_filter_le _ _
  have h := sequence_numbers_consecutive .release genesis start final [block₁, block₂] chain_accepted fun k => by
    have hzero : start.nonces.getD k 0 = 0 := rfl
    have := hlen k
    rw [hzero]
    simp only [UInt64.toNat_zero]
    omega
  exact ⟨h.1 (key 2), h.2.1 (key 2), h.2.2 (by unfold NoTxCollision; decide +kernel)⟩

end Witness

end RustProof
