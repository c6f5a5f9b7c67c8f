/-
Block application and fork choice (`rp-core/src/blockchain.rs`).

`validateAndApplyBlock` is the source's function. Over it stands the ledger as a transition system: a block is the list of
its operations (`Block.ops`: its transactions, then its slash proofs), an operation is a step between states (`OpStep`),
and a chain of accepted blocks is one run of operations (`OpRun`). The two are tied together once:
- `validate_ok_iff`: the source's function accepts a block exactly when the block's header checks pass and its
  operations run to a state with the announced root (`Accepted`);
- `replay_ops`: a chain accepted block by block is a run of all its operations.
What a step does does not depend on the build (`OpStep.eq_opEffect`), nor on the signatures of the block it comes from
(`Accepted.unsigned_eq`): two accepted blocks that differ only in signatures lead to the same state.

`shouldReplaceHead_iff`: the fork choice compares (height, slot, hash) lexicographically.
-/
import Mathlib.Data.Prod.Lex
import RustProof.Core.StateCodec

namespace RustProof

variable [Crypto]

/-! ## Source -/

inductive BlockError where
  | invalidSignature
  | invalidHeight
  | invalidSlot
  | invalidValidator
  | invalidTransaction
  | invalidSlashProof (error : SlashError)
  | invalidStateRoot
deriving DecidableEq, Repr

structure AppliedBlock where
  nextState : State
deriving DecidableEq

/-- `for tx in &block.transactions` -/
def applyTransactions (ck : OverflowChecks) (slot : UInt64) :
    List Transaction → State → Except Fault (Except BlockError State)
  | [], s => .ok (.ok s)
  | tx :: txs, s =>
    if !s.isValidTx tx then .ok (.error .invalidTransaction)
    else
      match s.applyTx ck tx slot with
      | .error f => .error f
      | .ok s' => applyTransactions ck slot txs s'

/-- `for proof in &block.slash_proofs` -/
def applySlashProofs : List SlashProof → State → Except BlockError State
  | [], s => .ok s
  | proof :: proofs, s =>
    match s.applySlash proof with
    | .error e => .error (.invalidSlashProof e)
    | .ok s' => applySlashProofs proofs s'

def validateAndApplyBlock (ck : OverflowChecks) (parentBlock : Block) (parentState : State) (block : Block) :
    Except Fault (Except BlockError AppliedBlock) :=
  if !block.isValid then .ok (.error .invalidSignature)
  else
    match addU64 ck .height parentBlock.height 1 with
    | .error f => .error f
    | .ok height =>
      if block.height ≠ height then .ok (.error .invalidHeight)
      else if block.slot ≤ parentBlock.slot then .ok (.error .invalidSlot)
      else
        match parentState.getExpectedValidator ck block.height with
        | .error f => .error f
        | .ok expected =>
          if expected.any fun v => decide (block.validator ≠ v) then .ok (.error .invalidValidator)
          else
            match applyTransactions ck block.slot block.transactions parentState with
            | .error f => .error f
            | .ok (.error e) => .ok (.error e)
            | .ok (.ok s) =>
              match applySlashProofs block.slashProofs s with
              | .error e => .ok (.error e)
              | .ok s' =>
                if block.stateRoot ≠ s'.computeStateRoot then .ok (.error .invalidStateRoot) else .ok (.ok ⟨s'⟩)

def shouldReplaceHead (candidateHash : Hash) (candidateBlock currentHead : Block) (headHash : Hash) : Bool :=
  if candidateBlock.height ≠ currentHead.height then candidateBlock.height > currentHead.height
  else if candidateBlock.slot ≠ currentHead.slot then candidateBlock.slot > currentHead.slot
  else candidateHash > headHash

/-- apply a chain of blocks, each on the state left by the one before -/
def replay (ck : OverflowChecks) : Block → State → List Block → Except Fault (Except BlockError State)
  | _, s, [] => .ok (.ok s)
  | parent, s, b :: bs =>
    match validateAndApplyBlock ck parent s b with
    | .error f => .error f
    | .ok (.error e) => .ok (.error e)
    | .ok (.ok applied) => replay ck b applied.nextState bs

/-! ## The ledger as a transition system -/

inductive LedgerOp where
  | tx (transaction : Transaction) (slot : UInt64)
  | slash (proof : SlashProof)

def Block.ops (b : Block) : List LedgerOp :=
  b.transactions.map (fun tx => .tx tx b.slot) ++ b.slashProofs.map .slash

def chainOps (bs : List Block) : List LedgerOp := bs.flatMap Block.ops

/-- what an operation does when nothing traps -/
def State.opEffect (s : State) : LedgerOp → State
  | .tx t slot => s.effect t slot
  | .slash proof => s.slashed proof

inductive OpStep (ck : OverflowChecks) : State → LedgerOp → State → Prop
  | tx {s s' : State} {t : Transaction} {slot : UInt64} (valid : s.isValidTx t = true)
      (apply : s.applyTx ck t slot = .ok s') : OpStep ck s (.tx t slot) s'
  | slash {s s' : State} {proof : SlashProof} (apply : s.applySlash proof = .ok s') : OpStep ck s (.slash proof) s'

inductive OpRun (ck : OverflowChecks) : State → List LedgerOp → State → Prop
  | nil (s : State) : OpRun ck s [] s
  | cons {s s' s'' : State} {op : LedgerOp} {ops : List LedgerOp} (head : OpStep ck s op s')
      (tail : OpRun ck s' ops s'') : OpRun ck s (op :: ops) s''

theorem OpStep.eq_opEffect {ck : OverflowChecks} {s s' : State} {op : LedgerOp} (h : OpStep ck s op s') :
    s' = s.opEffect op := by
  cases h with
  | tx _ happ => exact State.applyTx_eq happ
  | slash happ => exact (State.applySlash_ok_iff.1 happ).2

theorem OpStep.fits {ck : OverflowChecks} {s s' : State} {op : LedgerOp} (h : OpStep ck s op s') (hf : s.Fits) :
    s'.Fits := by
  cases h with
  | tx _ happ => exact State.applyTx_fits hf happ
  | slash happ => exact State.applySlash_fits hf happ

theorem OpRun.append {ck : OverflowChecks} {s s' s'' : State} {l l' : List LedgerOp} (h : OpRun ck s l s')
    (h' : OpRun ck s' l' s'') : OpRun ck s (l ++ l') s'' := by
  induction h with
  | nil s => exact h'
  | cons hd _ ih => exact .cons hd (ih h')

theorem OpRun.split {ck : OverflowChecks} {s s'' : State} {l l' : List LedgerOp} (h : OpRun ck s (l ++ l') s'') :
    ∃ s', OpRun ck s l s' ∧ OpRun ck s' l' s'' := by
  induction l generalizing s with
  | nil => exact ⟨s, .nil s, h⟩
  | cons op l ih =>
    cases h with
    | cons hd tl =>
      obtain ⟨s', h1, h2⟩ := ih tl
      exact ⟨s', .cons hd h1, h2⟩

theorem OpRun.fits {ck : OverflowChecks} {s s' : State} {ops : List LedgerOp} (h : OpRun ck s ops s') (hf : s.Fits) :
    s'.Fits := by
  induction h with
  | nil s => exact hf
  | cons hd _ ih => exact ih (hd.fits hf)

/-! ## The source's loops are runs -/

theorem applyTransactions_ok_iff {ck : OverflowChecks} {slot : UInt64} {txs : List Transaction} {s s' : State} :
    applyTransactions ck slot txs s = .ok (.ok s') ↔ OpRun ck s (txs.map fun tx => .tx tx slot) s' := by
  induction txs generalizing s with
  | nil =>
    constructor
    · intro h; cases h; exact .nil _
    · intro h; cases h; rfl
  | cons tx txs ih =>
    constructor
    · intro h
      unfold applyTransactions at h
      split_ifs at h with hv
      · cases h
      · split at h
        · cases h
        · rename_i s1 happ
          exact .cons (.tx (by simpa using hv) happ) (ih.1 h)
    · intro h
      cases h with
      | cons hd tl =>
        cases hd with
        | tx hv happ =>
          simp only [applyTransactions, hv, happ, Bool.not_true, Bool.false_eq_true, if_false]
          exact ih.2 tl

theorem applySlashProofs_ok_iff {ck : OverflowChecks} {proofs : List SlashProof} {s s' : State} :
    applySlashProofs proofs s = .ok s' ↔ OpRun ck s (proofs.map .slash) s' := by
  induction proofs generalizing s with
  | nil =>
    constructor
    · intro h; cases h; exact .nil _
    · intro h; cases h; rfl
  | cons p ps ih =>
    constructor
    · intro h
      unfold applySlashProofs at h
      split at h
      · cases h
      · rename_i s1 happ
        exact .cons (.slash happ) (ih.1 h)
    · intro h
      cases h with
      | cons hd tl =>
        cases hd with
        | slash happ =>
          simp only [applySlashProofs, happ]
          exact ih.2 tl

/-- an accepted block: the header checks, the run of its operations, the announced root -/
structure Accepted (ck : OverflowChecks) (parent : Block) (s : State) (b : Block) (s' : State) : Prop where
  valid : b.isValid = true
  height : addU64 ck .height parent.height 1 = .ok b.height
  slot : parent.slot < b.slot
  validator : ∃ expected, s.getExpectedValidator ck b.height = .ok expected ∧ ∀ v, expected = some v → b.validator = v
  ops : OpRun ck s b.ops s'
  root : b.stateRoot = s'.computeStateRoot

theorem validate_ok_iff {ck : OverflowChecks} {parent b : Block} {s s' : State} :
    validateAndApplyBlock ck parent s b = .ok (.ok ⟨s'⟩) ↔ Accepted ck parent s b s' := by
  constructor
  · intro h
    unfold validateAndApplyBlock at h
    by_cases hv : b.isValid = true
    case neg => simp [hv] at h
    rw [if_neg (by simp [hv])] at h
    split at h
    case h_1 => cases h
    rename_i height hh
    by_cases hheight : b.height = height
    case neg => rw [if_pos hheight] at h; cases h
    rw [if_neg (not_not.2 hheight)] at h
    by_cases hslot : b.slot ≤ parent.slot
    case pos => rw [if_pos hslot] at h; cases h
    rw [if_neg hslot] at h
    split at h
    case h_1 => cases h
    rename_i expected hexp
    by_cases hval : (expected.any fun v => decide (b.validator ≠ v)) = true
    case pos => rw [if_pos hval] at h; cases h
    rw [if_neg hval] at h
    split at h
    case h_1 => cases h
    case h_2 => cases h
    rename_i s1 htx
    split at h
    case h_1 => cases h
    rename_i s2 hsl
    by_cases hroot : b.stateRoot = s2.computeStateRoot
    case neg => rw [if_pos hroot] at h; cases h
    rw [if_neg (not_not.2 hroot)] at h
    cases h
    refine ⟨hv, by rw [hh, hheight], UInt64.not_le.1 hslot, ⟨expected, hexp, fun v hev => ?_⟩,
      (applyTransactions_ok_iff.1 htx).append (applySlashProofs_ok_iff.1 hsl), hroot⟩
    subst hev
    simpa using hval
  · rintro ⟨hv, hh, hslot, ⟨expected, hexp, hval⟩, hops, hroot⟩
    obtain ⟨s1, htx, hsl⟩ := hops.split
    have hany : (expected.any fun v => decide (b.validator ≠ v)) = false := by
      cases expected with
      | none => rfl
      | some v => simpa using hval v rfl
    simp only [validateAndApplyBlock, hv, hh, hexp, hany, applyTransactions_ok_iff.2 htx,
      applySlashProofs_ok_iff.2 hsl, Bool.not_true, Bool.false_eq_true, if_false, ne_eq, not_true_eq_false,
      if_neg (UInt64.not_le.2 hslot), hroot]

theorem Accepted.height_eq {ck : OverflowChecks} {parent b : Block} {s s' : State} (h : Accepted ck parent s b s') :
    b.height = parent.height + 1 := addU64_eq h.height

theorem replay_cons_ok_iff {ck : OverflowChecks} {parent b : Block} {s s' : State} {bs : List Block} :
    replay ck parent s (b :: bs) = .ok (.ok s') ↔
      ∃ s1, Accepted ck parent s b s1 ∧ replay ck b s1 bs = .ok (.ok s') := by
  simp only [replay]
  constructor
  · intro h
    split at h
    · cases h
    · cases h
    · rename_i applied hv
      exact ⟨applied.nextState, validate_ok_iff.1 hv, h⟩
  · rintro ⟨s1, hacc, h⟩
    rw [validate_ok_iff.2 hacc]
    exact h

/-- the last block of a chain decides on the state left by the others -/
theorem replay_snoc {ck : OverflowChecks} {root b : Block} {s0 s s' : State} {bs : List Block}
    (h : replay ck root s0 bs = .ok (.ok s)) (hb : Accepted ck (bs.getLastD root) s b s') :
    replay ck root s0 (bs ++ [b]) = .ok (.ok s') := by
  induction bs generalizing root s0 with
  | nil =>
    cases h
    exact replay_cons_ok_iff.2 ⟨s', hb, rfl⟩
  | cons a bs ih =>
    obtain ⟨s1, hacc, h⟩ := replay_cons_ok_iff.1 h
    exact replay_cons_ok_iff.2 ⟨s1, hacc, ih h (by rwa [List.getLastD_cons] at hb)⟩

/-- a chain replayed in two parts -/
theorem replay_append {ck : OverflowChecks} {root : Block} {s0 s' : State} {bs cs : List Block} :
    replay ck root s0 (bs ++ cs) = .ok (.ok s') ↔
      ∃ s, replay ck root s0 bs = .ok (.ok s) ∧ replay ck (bs.getLastD root) s cs = .ok (.ok s') := by
  induction bs generalizing root s0 with
  | nil =>
    constructor
    · exact fun h => ⟨s0, rfl, h⟩
    · rintro ⟨s, hs, h⟩
      cases hs
      exact h
  | cons b bs ih =>
    rw [List.cons_append, replay_cons_ok_iff, List.getLastD_cons]
    constructor
    · rintro ⟨s1, hacc, h⟩
      obtain ⟨s, hs, hrest⟩ := ih.1 h
      exact ⟨s, replay_cons_ok_iff.2 ⟨s1, hacc, hs⟩, hrest⟩
    · rintro ⟨s, hs, hrest⟩
      obtain ⟨s1, hacc, h⟩ := replay_cons_ok_iff.1 hs
      exact ⟨s1, hacc, ih.2 ⟨s, h, hrest⟩⟩

theorem replay_ops {ck : OverflowChecks} {parent : Block} {s s' : State} {bs : List Block}
    (h : replay ck parent s bs = .ok (.ok s')) : OpRun ck s (chainOps bs) s' := by
  induction bs generalizing parent s with
  | nil => cases h; exact .nil _
  | cons b bs ih =>
    obtain ⟨s1, hacc, h⟩ := replay_cons_ok_iff.1 h
    exact hacc.ops.append (ih h)

/-! ## Signatures do not matter to the result -/

section Unsigned

variable (b : Block)

@[simp] theorem Block.unsigned_height : b.unsigned.height = b.height := by cases b; rfl
@[simp] theorem Block.unsigned_slot : b.unsigned.slot = b.slot := by cases b; rfl
@[simp] theorem Block.unsigned_previousHash : b.unsigned.previousHash = b.previousHash := by cases b; rfl
@[simp] theorem Block.unsigned_stateRoot : b.unsigned.stateRoot = b.stateRoot := by cases b; rfl
@[simp] theorem Block.unsigned_transactions : b.unsigned.transactions = Transaction.unsignedAll b.transactions := by
  cases b; rfl
@[simp] theorem Block.unsigned_slashProofs : b.unsigned.slashProofs = SlashProof.unsignedAll b.slashProofs := by
  cases b; rfl
@[simp] theorem SlashProof.unsigned_validator (p : SlashProof) : p.unsigned.validator = p.validator := by cases p; rfl

end Unsigned

/-- the operations that differ only in signatures -/
def LedgerOp.unsigned : LedgerOp → LedgerOp
  | .tx t slot => .tx t.unsigned slot
  | .slash proof => .slash proof.unsigned

theorem Block.ops_unsigned (b : Block) : b.ops.map LedgerOp.unsigned = b.unsigned.ops := by
  have htx : ∀ txs : List Transaction, Transaction.unsignedAll txs = txs.map Transaction.unsigned := by
    intro txs; induction txs with
    | nil => rfl
    | cons t ts ih => rw [Transaction.unsignedAll, ih]; rfl
  have hsl : ∀ ps : List SlashProof, SlashProof.unsignedAll ps = ps.map SlashProof.unsigned := by
    intro ps; induction ps with
    | nil => rfl
    | cons p ps ih => rw [SlashProof.unsignedAll, ih]; rfl
  simp [Block.ops, htx, hsl, Function.comp_def, LedgerOp.unsigned]

/-- a slash that passed its check, whether sent as a transaction or carried by a block, is `slashed` -/
theorem effect_slash {s : State} {tx : Transaction} {slot : UInt64} {proof : SlashProof} (hd : tx.data = .slash proof)
    (hv : proof.validate = .ok ()) :
    s.effect tx slot =
      { s.slashed proof with nonces := State.bump s.nonces (verifyingKeyToBytes tx.sender) 1 } := by
  simp only [State.effect, hd, State.applySlash, hv, State.slashed]

theorem State.covers_slash {s : State} {tx : Transaction} {proof : SlashProof} (hd : tx.data = .slash proof)
    (hc : s.covers tx = true) : proof.validate = .ok () := by
  simp only [State.covers, hd] at hc
  cases hv : proof.validate with
  | ok u => rfl
  | error e => rw [hv] at hc; cases hc

theorem OpStep.unsigned_eq {ck : OverflowChecks} {s s₁ s₂ : State} {op₁ op₂ : LedgerOp} (h₁ : OpStep ck s op₁ s₁)
    (h₂ : OpStep ck s op₂ s₂) (h : op₁.unsigned = op₂.unsigned) : s₁ = s₂ := by
  cases h₁ with
  | slash happ₁ =>
    cases h₂ with
    | tx => cases h
    | slash happ₂ =>
      rw [(State.applySlash_ok_iff.1 happ₁).2, (State.applySlash_ok_iff.1 happ₂).2]
      simp only [LedgerOp.unsigned, LedgerOp.slash.injEq] at h
      have := congrArg SlashProof.validator h
      simp only [SlashProof.unsigned_validator] at this
      simp only [State.slashed, this]
  | @tx _ tx₁ slot₁ hv₁ happ₁ =>
    cases h₂ with
    | slash => cases h
    | @tx _ tx₂ slot₂ hv₂ happ₂ =>
      rw [State.applyTx_eq happ₁, State.applyTx_eq happ₂]
      obtain ⟨snd₁, d₁, q₁, f₁, g₁⟩ := tx₁
      obtain ⟨snd₂, d₂, q₂, f₂, g₂⟩ := tx₂
      simp only [LedgerOp.unsigned, Transaction.unsigned, LedgerOp.tx.injEq, Transaction.mk.injEq] at h
      obtain ⟨⟨rfl, hd, rfl, rfl, -⟩, rfl⟩ := h
      cases d₁ <;> cases d₂ <;> simp only [TransactionData.unsigned, TransactionData.transfer.injEq,
        TransactionData.stake.injEq, TransactionData.unstake.injEq, TransactionData.slash.injEq, reduceCtorEq] at hd
      case transfer.transfer => obtain ⟨rfl, rfl⟩ := hd; rfl
      case stake.stake => subst hd; rfl
      case unstake.unstake => subst hd; rfl
      case slash.slash p₁ p₂ =>
        rw [effect_slash rfl (State.covers_slash rfl ((s.isValidTx_iff _).1 hv₁).1),
          effect_slash rfl (State.covers_slash rfl ((s.isValidTx_iff _).1 hv₂).1)]
        have := congrArg SlashProof.validator hd
        simp only [SlashProof.unsigned_validator] at this
        simp only [State.slashed, this]

theorem OpRun.unsigned_eq {ck : OverflowChecks} {s s₁ s₂ : State} {l₁ l₂ : List LedgerOp} (h₁ : OpRun ck s l₁ s₁)
    (h₂ : OpRun ck s l₂ s₂) (h : l₁.map LedgerOp.unsigned = l₂.map LedgerOp.unsigned) : s₁ = s₂ := by
  induction h₁ generalizing l₂ with
  | nil s =>
    cases h₂ with
    | nil => rfl
    | cons => simp at h
  | cons hd tl ih =>
    cases h₂ with
    | nil => simp at h
    | cons hd₂ tl₂ =>
      simp only [List.map_cons, List.cons.injEq] at h
      cases hd.unsigned_eq hd₂ h.1
      exact ih tl₂ h.2

/-- two accepted blocks that differ only in signatures leave the same state -/
theorem Accepted.unsigned_eq {ck : OverflowChecks} {p₁ p₂ b₁ b₂ : Block} {s s₁ s₂ : State}
    (h₁ : Accepted ck p₁ s b₁ s₁) (h₂ : Accepted ck p₂ s b₂ s₂) (h : b₁.unsigned = b₂.unsigned) : s₁ = s₂ :=
  h₁.ops.unsigned_eq h₂.ops (by rw [Block.ops_unsigned, Block.ops_unsigned, h])

/-- a parent matters to its children through its height and slot only -/
theorem Accepted.of_parent {ck : OverflowChecks} {p p' b : Block} {s s' : State} (h : Accepted ck p s b s')
    (hh : p.height = p'.height) (hs : p.slot = p'.slot) : Accepted ck p' s b s' :=
  { h with height := hh ▸ h.height, slot := hs ▸ h.slot }

theorem Accepted.fits {ck : OverflowChecks} {p b : Block} {s s' : State} (h : Accepted ck p s b s') (hf : s.Fits) :
    s'.Fits := h.ops.fits hf

/-! ## Fork choice -/

/-- (height, slot, hash), compared lexicographically -/
def rank (hash : Hash) (b : Block) : UInt64 ×ₗ UInt64 ×ₗ Hash := toLex (b.height, toLex (b.slot, hash))

theorem shouldReplaceHead_iff {h hh : Hash} {b head : Block} :
    shouldReplaceHead h b head hh = true ↔ rank hh head < rank h b := by
  unfold shouldReplaceHead rank
  rw [Prod.Lex.toLex_lt_toLex, Prod.Lex.toLex_lt_toLex]
  by_cases h1 : b.height = head.height
  · by_cases h2 : b.slot = head.slot
    · simp [h1, h2]
    · simp [h1, h2, Ne.symm h2]
  · simp [h1, Ne.symm h1]

theorem rank_congr {h : Hash} {a b : Block} (hu : a.unsigned = b.unsigned) : rank h a = rank h b := by
  have h1 := congrArg Block.height hu
  have h2 := congrArg Block.slot hu
  simp only [Block.unsigned_height, Block.unsigned_slot] at h1 h2
  simp only [rank, h1, h2]

end RustProof
