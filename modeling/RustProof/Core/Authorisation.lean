/-
Authorisation: whose signature it takes to change an account.

An account is the 33 bytes its maps are keyed by. What one operation can do to an account is said once per map
(`opStep_nonce_frame`, `opStep_balance_le`, `opStep_stake_frame`), with the evidence the validity check demanded at that
moment (`opStep_justified`); a block is a run of its operations, and the frame of the run is the frame of its steps.

Results, for every accepted block:
- `no_value_moves_without_owner`: an account that sent nothing keeps its nonce and does not lose balance; its stake and
  its unstaking requests change only by its own signed Stake or Unstake, or by a slash that shows two blocks of one slot
  it signed. A validator that signs one block hash per slot is named by no accepted slash.
-/
import RustProof.Core.Conservation

namespace RustProof

section Ledger

variable [Crypto]

/-! ## What an operation touches -/

/-- the account that sent the operation -/
def LedgerOp.SentBy (k : PublicKeyBytes) : LedgerOp → Prop
  | .tx t _ => verifyingKeyToBytes t.sender = k
  | .slash _ => False

/-- `k` stakes or unstakes -/
def Transaction.Stakes (k : PublicKeyBytes) (t : Transaction) : Prop :=
  verifyingKeyToBytes t.sender = k ∧ ((∃ a, t.data = .stake a) ∨ ∃ a, t.data = .unstake a)

/-- the proof an operation slashes with -/
def LedgerOp.Slashes (proof : SlashProof) : LedgerOp → Prop
  | .tx t _ => t.data = .slash proof
  | .slash p => p = proof

/-- the operations that may write `k`'s stake or unstaking entry -/
def LedgerOp.MovesStake (k : PublicKeyBytes) (op : LedgerOp) : Prop :=
  (∃ t slot, op = .tx t slot ∧ t.Stakes k) ∨ ∃ proof, op.Slashes proof ∧ verifyingKeyToBytes proof.validator = k

/-! ## One operation -/

omit [Crypto] in
theorem getD_bump_ne {m : BTreeMap PublicKeyBytes UInt64} {k k' : PublicKeyBytes} (x : UInt64) (h : k' ≠ k) :
    (State.bump m k' x).getD k 0 = m.getD k 0 := by
  unfold State.bump BTreeMap.getD
  rw [BTreeMap.get?_insert_ne m _ h]

omit [Crypto] in
theorem getD_drop_ne {m : BTreeMap PublicKeyBytes UInt64} {k k' : PublicKeyBytes} (x : UInt64) (h : k' ≠ k) :
    (State.drop m k' x).getD k 0 = m.getD k 0 := by
  unfold State.drop BTreeMap.getD
  rw [BTreeMap.get?_insert_ne m _ h]

theorem opStep_nonce_frame {ck : OverflowChecks} {s s' : State} {op : LedgerOp} {k : PublicKeyBytes}
    (h : OpStep ck s op s') (hk : ¬ op.SentBy k) : s'.nonces.getD k 0 = s.nonces.getD k 0 := by
  rw [h.eq_opEffect]
  cases op with
  | slash p => rfl
  | tx t slot =>
    simp only [State.opEffect, State.effect_nonces]
    exact getD_bump_ne 1 hk

theorem opStep_balance_le {ck : OverflowChecks} {s s' : State} {op : LedgerOp} {k : PublicKeyBytes}
    (ht : s.total < 2 ^ 64) (h : OpStep ck s op s') (hk : ¬ op.SentBy k) :
    s.balances.getD k 0 ≤ s'.balances.getD k 0 := by
  have heff := h.eq_opEffect
  cases h with
  | slash _ => rw [heff]; exact le_rfl
  | @tx _ t slot hv _ =>
    have hk : verifyingKeyToBytes t.sender ≠ k := hk
    obtain ⟨htr, -, -⟩ := State.covers_le ((s.isValidTx_iff t).1 hv).1
    rw [heff]
    simp only [State.opEffect, State.effect]
    cases hd : t.data with
    | transfer r a =>
      have hdrop := coins_drop (htr r a hd)
      have hle := getD_le_coins (State.drop s.balances (verifyingKeyToBytes t.sender) a) k
      have hfix := getD_drop_ne (m := s.balances) a hk
      by_cases hr : verifyingKeyToBytes r = k
      · -- `k` is credited what the sender was debited, so the sum bounds the new balance
        simp only [State.total] at ht
        rw [hfix] at hle
        have hlt : (s.balances.getD k 0).toNat + a.toNat < 2 ^ 64 := by omega
        simp only [State.bump, hr, BTreeMap.getD_insert_self, hfix, UInt64.le_iff_toNat_le, toNat_add_of_lt hlt]
        omega
      · rw [getD_bump_ne a hr, hfix]
    | stake a => rw [getD_drop_ne a hk]
    | unstake a => exact le_rfl
    | slash p =>
      simp only [State.applySlash]
      cases p.validate <;> exact le_rfl

theorem opStep_stake_frame {ck : OverflowChecks} {s s' : State} {op : LedgerOp} {k : PublicKeyBytes}
    (h : OpStep ck s op s') (hk : ¬ op.MovesStake k) :
    s'.stakes.get? k = s.stakes.get? k ∧ s'.unstaking.get? k = s.unstaking.get? k := by
  rw [h.eq_opEffect]
  cases op with
  | slash p =>
    have hp : verifyingKeyToBytes p.validator ≠ k := fun e => hk (.inr ⟨p, rfl, e⟩)
    exact ⟨BTreeMap.get?_remove_ne _ hp, BTreeMap.get?_remove_ne _ hp⟩
  | tx t slot =>
    simp only [State.opEffect, State.effect]
    cases hd : t.data with
    | transfer r a => exact ⟨rfl, rfl⟩
    | stake a =>
      have hs : verifyingKeyToBytes t.sender ≠ k := fun e => hk (.inl ⟨t, slot, rfl, e, .inl ⟨a, hd⟩⟩)
      exact ⟨BTreeMap.get?_insert_ne _ _ hs, rfl⟩
    | unstake a =>
      have hs : verifyingKeyToBytes t.sender ≠ k := fun e => hk (.inl ⟨t, slot, rfl, e, .inr ⟨a, hd⟩⟩)
      exact ⟨BTreeMap.get?_insert_ne _ _ hs, BTreeMap.get?_insert_ne _ _ hs⟩
    | slash p =>
      have hp : verifyingKeyToBytes p.validator ≠ k := fun e => hk (.inr ⟨p, hd, e⟩)
      simp only [State.applySlash]
      cases p.validate with
      | error e => exact ⟨rfl, rfl⟩
      | ok u => exact ⟨BTreeMap.get?_remove_ne _ hp, BTreeMap.get?_remove_ne _ hp⟩

/-! ## The evidence behind an operation -/

/-- the signature of a transaction verifies under its sender -/
def Transaction.SignedBySender (t : Transaction) : Prop :=
  ∃ signature, t.signature = some signature ∧ verify t.sender t.hash.bytes signature = true

theorem Transaction.signedBySender_of_isValid {t : Transaction} (h : t.isValid = true) : t.SignedBySender := by
  unfold Transaction.isValid at h
  cases hs : t.signature with
  | none => rw [hs] at h; cases h
  | some signature => rw [hs] at h; exact ⟨signature, hs, h⟩

/-- what an operation proved when it was accepted: its sender's signature, and the equivocation it slashes for -/
def LedgerOp.Justified (op : LedgerOp) : Prop :=
  (∀ t slot, op = .tx t slot → t.SignedBySender) ∧
    ∀ proof, op.Slashes proof → Equivocates proof.validator proof.blockA proof.blockB

theorem opStep_justified {ck : OverflowChecks} {s s' : State} {op : LedgerOp} (h : OpStep ck s op s') :
    op.Justified := by
  cases h with
  | slash happ =>
    refine ⟨fun t slot he => ?_, fun proof hp => ?_⟩
    · cases he
    have hp : _ = proof := hp
    subst hp
    exact (SlashProof.validate_ok_iff _).1 (State.applySlash_ok_iff.1 happ).1
  | tx hv _ =>
    obtain ⟨hcov, -, hsig⟩ := (State.isValidTx_iff _ _).1 hv
    refine ⟨fun t slot he => ?_, fun proof hp => ?_⟩
    · cases he; exact Transaction.signedBySender_of_isValid hsig
    · exact (SlashProof.validate_ok_iff _).1 (State.covers_slash hp hcov)

/-! ## A run of operations -/

theorem opRun_justified {ck : OverflowChecks} {s s' : State} {ops : List LedgerOp} (h : OpRun ck s ops s') :
    ∀ op ∈ ops, op.Justified := by
  induction h with
  | nil s => simp
  | cons hd _ ih =>
    intro op hop
    rcases List.mem_cons.1 hop with rfl | hop
    · exact opStep_justified hd
    · exact ih op hop

theorem opRun_sender_frame {ck : OverflowChecks} {s s' : State} {ops : List LedgerOp} {k : PublicKeyBytes}
    (ht : s.total < 2 ^ 64) (h : OpRun ck s ops s') (hk : ∀ op ∈ ops, ¬ op.SentBy k) :
    s'.nonces.getD k 0 = s.nonces.getD k 0 ∧ s.balances.getD k 0 ≤ s'.balances.getD k 0 := by
  induction h with
  | nil s => exact ⟨rfl, le_rfl⟩
  | @cons s s1 s2 op ops hd tl ih =>
    have hop := hk op List.mem_cons_self
    have hsum := (opStep_total ht hd).1
    obtain ⟨hn, hb⟩ := ih (by omega) fun o ho => hk o (List.mem_cons_of_mem _ ho)
    exact ⟨hn.trans (opStep_nonce_frame hd hop), (opStep_balance_le ht hd hop).trans hb⟩

theorem opRun_stake_frame {ck : OverflowChecks} {s s' : State} {ops : List LedgerOp} {k : PublicKeyBytes}
    (h : OpRun ck s ops s') (hk : ∀ op ∈ ops, ¬ op.MovesStake k) :
    s'.stakes.get? k = s.stakes.get? k ∧ s'.unstaking.get? k = s.unstaking.get? k := by
  induction h with
  | nil s => exact ⟨rfl, rfl⟩
  | @cons s s1 s2 op ops hd tl ih =>
    obtain ⟨h1, h2⟩ := opStep_stake_frame hd (hk op List.mem_cons_self)
    obtain ⟨i1, i2⟩ := ih fun o ho => hk o (List.mem_cons_of_mem _ ho)
    exact ⟨i1.trans h1, i2.trans h2⟩

/-! ## A block -/

/-- a slash proof of the block, in a Slash transaction or in `slash_proofs` -/
def Block.Carries (b : Block) (proof : SlashProof) : Prop :=
  (∃ t ∈ b.transactions, t.data = .slash proof) ∨ proof ∈ b.slashProofs

theorem Block.mem_ops {b : Block} {op : LedgerOp} :
    op ∈ b.ops ↔ (∃ t ∈ b.transactions, op = .tx t b.slot) ∨ ∃ p ∈ b.slashProofs, op = .slash p := by
  simp [Block.ops, eq_comm]

theorem Block.carries_iff {b : Block} {proof : SlashProof} : b.Carries proof ↔ ∃ op ∈ b.ops, op.Slashes proof := by
  simp only [Block.mem_ops]
  constructor
  · rintro (⟨t, ht, hd⟩ | hp)
    · exact ⟨.tx t b.slot, .inl ⟨t, ht, rfl⟩, hd⟩
    · exact ⟨.slash proof, .inr ⟨proof, hp, rfl⟩, rfl⟩
  · rintro ⟨op, ⟨t, ht, rfl⟩ | ⟨p, hp, rfl⟩, hs⟩
    · exact .inl ⟨t, ht, hs⟩
    · have hs : p = proof := hs
      exact .inr (hs ▸ hp)

/-- among the blocks of `S`, the ones signed by `k` have one hash per slot -/
def SignsOncePerSlot (k : VerifyingKey) (S : Set Block) : Prop :=
  ∀ a ∈ S, ∀ b ∈ S, a.validator = k → b.validator = k → a.isValid = true → b.isValid = true → a.slot = b.slot →
    a.hash = b.hash

/-- **No value moves without its owner's authorisation.** For every accepted block and every account `k`: without a
transaction sent by `k`, its nonce stays and its balance does not fall; if its stake or unstaking entry changes, the block
holds a Stake or Unstake of `k` with `k`'s signature, or a slash that shows two blocks of one slot with different hashes,
both naming and signed by `k`. And a key that signs at most one block hash per slot, in any set of blocks that holds the
evidence, is named by no slash of the block. -/
theorem no_value_moves_without_owner (ck : OverflowChecks) (parent b : Block) (s s' : State) (k : PublicKeyBytes)
    (ht : s.total < 2 ^ 64) (h : validateAndApplyBlock ck parent s b = .ok (.ok ⟨s'⟩)) :
    ((∀ t ∈ b.transactions, verifyingKeyToBytes t.sender ≠ k) →
      s'.nonces.getD k 0 = s.nonces.getD k 0 ∧ s.balances.getD k 0 ≤ s'.balances.getD k 0) ∧
    (s'.stakes.get? k ≠ s.stakes.get? k ∨ s'.unstaking.get? k ≠ s.unstaking.get? k →
      (∃ t ∈ b.transactions, t.Stakes k ∧ t.SignedBySender) ∨
      ∃ proof, b.Carries proof ∧ verifyingKeyToBytes proof.validator = k ∧
        Equivocates proof.validator proof.blockA proof.blockB) ∧
    ∀ (key : VerifyingKey) (S : Set Block), (∀ proof, b.Carries proof → proof.blockA ∈ S ∧ proof.blockB ∈ S) →
      SignsOncePerSlot key S → ∀ proof, b.Carries proof → proof.validator ≠ key := by
  have hrun := (validate_ok_iff.1 h).ops
  have hjust := opRun_justified hrun
  refine ⟨fun hk => ?_, fun hne => ?_, fun key S hS honest proof hc he => ?_⟩
  · refine opRun_sender_frame ht hrun fun op hop => ?_
    rcases Block.mem_ops.1 hop with ⟨t, htm, rfl⟩ | ⟨p, -, rfl⟩
    · exact hk t htm
    · exact id
  · by_contra hno
    push Not at hno
    obtain ⟨hstake, hslash⟩ := hno
    have hframe := opRun_stake_frame (k := k) hrun fun op hop hmoves => ?_
    · exact hne.elim (fun hn => hn hframe.1) fun hn => hn hframe.2
    rcases hmoves with ⟨t, slot, rfl, hst⟩ | ⟨proof, hsl, hval⟩
    · rcases Block.mem_ops.1 hop with ⟨t', htm, he⟩ | ⟨p, -, he⟩
      · cases he
        exact hstake t htm hst ((hjust _ hop).1 t _ rfl)
      · cases he
    · exact hslash proof (Block.carries_iff.2 ⟨op, hop, hsl⟩) hval ((hjust op hop).2 proof hsl)
  · obtain ⟨op, hop, hsl⟩ := Block.carries_iff.1 hc
    obtain ⟨hslot, hhash, hva, hvb, hia, hib⟩ := (hjust op hop).2 proof hsl
    obtain ⟨hA, hB⟩ := hS proof hc
    exact hhash (honest _ hA _ hB (hva.trans he) (hvb.trans he) hia hib hslot)

end Ledger

section Witness

open Sample

theorem no_value_moves_without_owner_sample :
    middle.nonces.getD (key 3) 0 = start.nonces.getD (key 3) 0 ∧
    start.balances.getD (key 3) 0 ≤ middle.balances.getD (key 3) 0 ∧
    ((∃ t ∈ block₁.transactions, t.Stakes (key 3) ∧ t.SignedBySender) ∨
      ∃ proof, block₁.Carries proof ∧ proof.validator = key 3 ∧
        Equivocates proof.validator proof.blockA proof.blockB) := by
  have h := no_value_moves_without_owner .release genesis block₁ start middle (key 3) (by decide) block₁_accepted
  obtain ⟨hnonce, hbalance⟩ := h.1 (by decide +kernel)
  exact ⟨hnonce, hbalance, h.2.1 (.inl (by decide +kernel))⟩

end Witness

end RustProof
