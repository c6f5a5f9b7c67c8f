/-
The ledger's data (`models/block.rs`, `models/transaction.rs`, `models/slashing.rs`), its canonical bytes
(`traits.rs`), and the signature checks over them.

A hash commits to the canonical bytes, and these leave every signature out: of the block itself, of its transactions, and
of whatever a slash proof nests. `unsigned` is what is left of a value once all of that is erased.

Results:
- `Block.toBytes_append_inj` (with its companions for transactions and slash proofs): the canonical bytes are uniquely
  decodable up to signatures. If two encodings, each followed by anything, are equal, then the values agree up to their
  signatures and so does what follows. The induction is over all three types at once, since they nest in each other;
- `Block.unsigned_eq_of_hash_eq`: blocks with one hash differ only in signatures, unless SHA-256 collides on them.

Premise: `Sized`, the length of every `Vec` fits the eight bytes of its length prefix. Rust's `Vec` promises it.
-/
import RustProof.Core.Crypto

namespace RustProof

variable [Crypto]

/-! ## Data -/

mutual

structure Block where
  height : UInt64
  slot : UInt64
  previousHash : Hash
  validator : VerifyingKey
  transactions : List Transaction
  signature : Option Signature
  slashProofs : List SlashProof
  stateRoot : Hash

structure Transaction where
  sender : VerifyingKey
  data : TransactionData
  sequence : UInt64
  fee : UInt64
  signature : Option Signature

inductive TransactionData where
  | transfer (receiver : VerifyingKey) (amount : UInt64)
  | stake (amount : UInt64)
  | unstake (amount : UInt64)
  | slash (proof : SlashProof)

/-- two blocks signed by one validator for the same slot (equivocation) -/
structure SlashProof where
  validator : VerifyingKey
  blockA : Block
  blockB : Block

end

/-! ## Canonical bytes -/

/-- the length prefix `(self.len() as u64).to_be_bytes()` -/
def lenPrefix (n : ℕ) : List UInt8 := u64ToBe (UInt64.ofNat n)

/-- `VerifyingKey::to_bytes` -/
def keyBytes (k : VerifyingKey) : List UInt8 := (verifyingKeyToBytes k).bytes

mutual

def Block.toBytes : Block → List UInt8
  | ⟨height, slot, previousHash, validator, transactions, _, slashProofs, stateRoot⟩ =>
    u64ToBe height ++ (u64ToBe slot ++ (previousHash.bytes ++ (keyBytes validator ++
      ((lenPrefix transactions.length ++ Transaction.concatBytes transactions) ++
      ((lenPrefix slashProofs.length ++ SlashProof.concatBytes slashProofs) ++ stateRoot.bytes)))))

def Transaction.toBytes : Transaction → List UInt8
  | ⟨sender, data, sequence, fee, _⟩ => keyBytes sender ++ (data.toBytes ++ (u64ToBe sequence ++ u64ToBe fee))

/-- the tag byte and the payload inside `Transaction::to_bytes` -/
def TransactionData.toBytes : TransactionData → List UInt8
  | .transfer receiver amount => 0 :: (keyBytes receiver ++ u64ToBe amount)
  | .stake amount => 1 :: u64ToBe amount
  | .unstake amount => 2 :: u64ToBe amount
  | .slash proof => 3 :: proof.toBytes

def SlashProof.toBytes : SlashProof → List UInt8
  | ⟨validator, blockA, blockB⟩ => keyBytes validator ++ (blockA.toBytes ++ blockB.toBytes)

/-- the items of `Vec<Transaction>::to_bytes`, behind the length -/
def Transaction.concatBytes : List Transaction → List UInt8
  | [] => []
  | tx :: txs => tx.toBytes ++ Transaction.concatBytes txs

def SlashProof.concatBytes : List SlashProof → List UInt8
  | [] => []
  | p :: ps => p.toBytes ++ SlashProof.concatBytes ps

end

/-- `Hashable::hash` -/
def Block.hash (b : Block) : Hash := sha256 b.toBytes

def Transaction.hash (tx : Transaction) : Hash := sha256 tx.toBytes

/-! ## Signature checks -/

def Block.isValid (b : Block) : Bool :=
  match b.signature with
  | some signature => verify b.validator b.hash.bytes signature
  | none => false

def Transaction.isValid (tx : Transaction) : Bool :=
  match tx.signature with
  | some signature => verify tx.sender tx.hash.bytes signature
  | none => false

inductive SlashError where
  | differentSlots
  | identicalBlocks
  | validatorMismatchA
  | validatorMismatchB
  | invalidBlockA
  | invalidBlockB
deriving DecidableEq, Repr

def SlashProof.validate (p : SlashProof) : Except SlashError Unit :=
  if p.blockA.slot ≠ p.blockB.slot then .error .differentSlots
  else if p.blockA.hash = p.blockB.hash then .error .identicalBlocks
  else if p.blockA.validator ≠ p.validator then .error .validatorMismatchA
  else if p.blockB.validator ≠ p.validator then .error .validatorMismatchB
  else if !p.blockA.isValid then .error .invalidBlockA
  else if !p.blockB.isValid then .error .invalidBlockB
  else .ok ()

/-- two different blocks of one slot, both signed by `k` -/
structure Equivocates (k : VerifyingKey) (a b : Block) : Prop where
  slot : a.slot = b.slot
  hash : a.hash ≠ b.hash
  validatorA : a.validator = k
  validatorB : b.validator = k
  validA : a.isValid = true
  validB : b.isValid = true

/-- what an accepted slash proof shows -/
theorem SlashProof.validate_ok_iff (p : SlashProof) :
    p.validate = .ok () ↔ Equivocates p.validator p.blockA p.blockB := by
  unfold SlashProof.validate
  constructor
  · intro h
    split_ifs at h with h1 h2 h3 h4 h5 h6
    exact ⟨not_not.1 h1, h2, not_not.1 h3, not_not.1 h4, by simpa using h5, by simpa using h6⟩
  · rintro ⟨h1, h2, h3, h4, h5, h6⟩
    simp [h1, h2, h3, h4, h5, h6]

/-! ## Values without their signatures -/

mutual

def Block.unsigned : Block → Block
  | ⟨height, slot, previousHash, validator, transactions, _, slashProofs, stateRoot⟩ =>
    ⟨height, slot, previousHash, validator, Transaction.unsignedAll transactions, none,
      SlashProof.unsignedAll slashProofs, stateRoot⟩

def Transaction.unsigned : Transaction → Transaction
  | ⟨sender, data, sequence, fee, _⟩ => ⟨sender, data.unsigned, sequence, fee, none⟩

def TransactionData.unsigned : TransactionData → TransactionData
  | .transfer receiver amount => .transfer receiver amount
  | .stake amount => .stake amount
  | .unstake amount => .unstake amount
  | .slash proof => .slash proof.unsigned

def SlashProof.unsigned : SlashProof → SlashProof
  | ⟨validator, blockA, blockB⟩ => ⟨validator, blockA.unsigned, blockB.unsigned⟩

def Transaction.unsignedAll : List Transaction → List Transaction
  | [] => []
  | tx :: txs => tx.unsigned :: Transaction.unsignedAll txs

def SlashProof.unsignedAll : List SlashProof → List SlashProof
  | [] => []
  | p :: ps => p.unsigned :: SlashProof.unsignedAll ps

end

mutual

/-- every `Vec` in the value is shorter than 2^64 -/
def Block.Sized : Block → Prop
  | ⟨_, _, _, _, transactions, _, slashProofs, _⟩ =>
    (transactions.length < 2 ^ 64 ∧ Transaction.SizedAll transactions) ∧
      (slashProofs.length < 2 ^ 64 ∧ SlashProof.SizedAll slashProofs)

def Transaction.Sized : Transaction → Prop
  | ⟨_, data, _, _, _⟩ => data.Sized

def TransactionData.Sized : TransactionData → Prop
  | .slash proof => proof.Sized
  | _ => True

def SlashProof.Sized : SlashProof → Prop
  | ⟨_, blockA, blockB⟩ => blockA.Sized ∧ blockB.Sized

def Transaction.SizedAll : List Transaction → Prop
  | [] => True
  | tx :: txs => tx.Sized ∧ Transaction.SizedAll txs

def SlashProof.SizedAll : List SlashProof → Prop
  | [] => True
  | p :: ps => p.Sized ∧ SlashProof.SizedAll ps

end

/-! ## Unique decodability -/

theorem keyBytes_append_inj {k l : VerifyingKey} {x y : List UInt8} (h : keyBytes k ++ x = keyBytes l ++ y) :
    k = l ∧ x = y := by
  obtain ⟨h1, h2⟩ := U8Array.append_inj h
  exact ⟨verifyingKeyToBytes_injective h1, h2⟩

omit [Crypto] in
theorem lenPrefix_append_inj {m n : ℕ} {x y : List UInt8} (hm : m < 2 ^ 64) (hn : n < 2 ^ 64)
    (h : lenPrefix m ++ x = lenPrefix n ++ y) : m = n ∧ x = y := by
  obtain ⟨h1, h2⟩ := u64ToBe_append_inj h
  have := congrArg UInt64.toNat h1
  rw [UInt64.toNat_ofNat', UInt64.toNat_ofNat', Nat.mod_eq_of_lt hm, Nat.mod_eq_of_lt hn] at this
  exact ⟨this, h2⟩

mutual

theorem Block.toBytes_append_inj : ∀ (a b : Block) (x y : List UInt8), a.Sized → b.Sized →
    a.toBytes ++ x = b.toBytes ++ y → a.unsigned = b.unsigned ∧ x = y
  | ⟨_, _, _, _, ta, _, pa, ra⟩, ⟨_, _, _, _, tb, _, pb, rb⟩, x, y, ha, hb, h => by
    obtain ⟨⟨hta, hsta⟩, hpa, hspa⟩ := ha
    obtain ⟨⟨htb, hstb⟩, hpb, hspb⟩ := hb
    simp only [Block.toBytes, List.append_assoc] at h
    obtain ⟨rfl, h1⟩ := u64ToBe_append_inj h
    obtain ⟨rfl, h2⟩ := u64ToBe_append_inj h1
    obtain ⟨rfl, h3⟩ := U8Array.append_inj h2
    obtain ⟨rfl, h4⟩ := keyBytes_append_inj h3
    obtain ⟨hlen, h5⟩ := lenPrefix_append_inj hta htb h4
    obtain ⟨ht, h6⟩ := Transaction.concatBytes_append_inj ta tb _ _ hsta hstb hlen h5
    obtain ⟨hlen, h7⟩ := lenPrefix_append_inj hpa hpb h6
    obtain ⟨hp, h8⟩ := SlashProof.concatBytes_append_inj pa pb _ _ hspa hspb hlen h7
    obtain ⟨rfl, h9⟩ := U8Array.append_inj h8
    exact ⟨by simp only [Block.unsigned, ht, hp], h9⟩

theorem Transaction.toBytes_append_inj : ∀ (a b : Transaction) (x y : List UInt8), a.Sized → b.Sized →
    a.toBytes ++ x = b.toBytes ++ y → a.unsigned = b.unsigned ∧ x = y
  | ⟨_, da, _, _, _⟩, ⟨_, db, _, _, _⟩, x, y, ha, hb, h => by
    simp only [Transaction.toBytes, List.append_assoc] at h
    obtain ⟨rfl, h1⟩ := keyBytes_append_inj h
    obtain ⟨hd, h2⟩ := TransactionData.toBytes_append_inj da db _ _ ha hb h1
    obtain ⟨rfl, h3⟩ := u64ToBe_append_inj h2
    obtain ⟨rfl, h4⟩ := u64ToBe_append_inj h3
    exact ⟨by simp only [Transaction.unsigned, hd], h4⟩

theorem TransactionData.toBytes_append_inj : ∀ (a b : TransactionData) (x y : List UInt8), a.Sized → b.Sized →
    a.toBytes ++ x = b.toBytes ++ y → a.unsigned = b.unsigned ∧ x = y
  | .transfer _ _, .transfer _ _, x, y, _, _, h => by
    simp only [TransactionData.toBytes, List.cons_append, List.cons.injEq, true_and, List.append_assoc] at h
    obtain ⟨rfl, h1⟩ := keyBytes_append_inj h
    obtain ⟨rfl, h2⟩ := u64ToBe_append_inj h1
    exact ⟨rfl, h2⟩
  | .stake _, .stake _, x, y, _, _, h => by
    simp only [TransactionData.toBytes, List.cons_append, List.cons.injEq, true_and] at h
    obtain ⟨rfl, h1⟩ := u64ToBe_append_inj h
    exact ⟨rfl, h1⟩
  | .unstake _, .unstake _, x, y, _, _, h => by
    simp only [TransactionData.toBytes, List.cons_append, List.cons.injEq, true_and] at h
    obtain ⟨rfl, h1⟩ := u64ToBe_append_inj h
    exact ⟨rfl, h1⟩
  | .slash p, .slash q, x, y, ha, hb, h => by
    simp only [TransactionData.toBytes, List.cons_append, List.cons.injEq, true_and] at h
    obtain ⟨hp, h1⟩ := SlashProof.toBytes_append_inj p q x y ha hb h
    exact ⟨by simp only [TransactionData.unsigned, hp], h1⟩
  -- different kinds differ in the tag byte
  | .transfer _ _, .stake _, _, _, _, _, h | .transfer _ _, .unstake _, _, _, _, _, h
  | .transfer _ _, .slash _, _, _, _, _, h | .stake _, .transfer _ _, _, _, _, _, h
  | .stake _, .unstake _, _, _, _, _, h | .stake _, .slash _, _, _, _, _, h
  | .unstake _, .transfer _ _, _, _, _, _, h | .unstake _, .stake _, _, _, _, _, h
  | .unstake _, .slash _, _, _, _, _, h | .slash _, .transfer _ _, _, _, _, _, h
  | .slash _, .stake _, _, _, _, _, h | .slash _, .unstake _, _, _, _, _, h => by
    simp [TransactionData.toBytes] at h

theorem SlashProof.toBytes_append_inj : ∀ (p q : SlashProof) (x y : List UInt8), p.Sized → q.Sized →
    p.toBytes ++ x = q.toBytes ++ y → p.unsigned = q.unsigned ∧ x = y
  | ⟨_, pa, pb⟩, ⟨_, qa, qb⟩, x, y, hp, hq, h => by
    simp only [SlashProof.toBytes, List.append_assoc] at h
    obtain ⟨rfl, h1⟩ := keyBytes_append_inj h
    obtain ⟨ha, h2⟩ := Block.toBytes_append_inj pa qa _ _ hp.1 hq.1 h1
    obtain ⟨hb, h3⟩ := Block.toBytes_append_inj pb qb _ _ hp.2 hq.2 h2
    exact ⟨by simp only [SlashProof.unsigned, ha, hb], h3⟩

theorem Transaction.concatBytes_append_inj : ∀ (as bs : List Transaction) (x y : List UInt8),
    Transaction.SizedAll as → Transaction.SizedAll bs → as.length = bs.length →
    Transaction.concatBytes as ++ x = Transaction.concatBytes bs ++ y →
    Transaction.unsignedAll as = Transaction.unsignedAll bs ∧ x = y
  | [], [], _, _, _, _, _, h => ⟨rfl, h⟩
  | [], _ :: _, _, _, _, _, hl, _ | _ :: _, [], _, _, _, _, hl, _ => by simp at hl
  | a :: as, b :: bs, x, y, ha, hb, hl, h => by
    simp only [Transaction.concatBytes, List.append_assoc] at h
    obtain ⟨hd, h1⟩ := Transaction.toBytes_append_inj a b _ _ ha.1 hb.1 h
    obtain ⟨htl, h2⟩ := Transaction.concatBytes_append_inj as bs x y ha.2 hb.2 (Nat.succ.inj hl) h1
    exact ⟨by simp only [Transaction.unsignedAll, hd, htl], h2⟩

theorem SlashProof.concatBytes_append_inj : ∀ (ps qs : List SlashProof) (x y : List UInt8),
    SlashProof.SizedAll ps → SlashProof.SizedAll qs → ps.length = qs.length →
    SlashProof.concatBytes ps ++ x = SlashProof.concatBytes qs ++ y →
    SlashProof.unsignedAll ps = SlashProof.unsignedAll qs ∧ x = y
  | [], [], _, _, _, _, _, h => ⟨rfl, h⟩
  | [], _ :: _, _, _, _, _, hl, _ | _ :: _, [], _, _, _, _, hl, _ => by simp at hl
  | p :: ps, q :: qs, x, y, hp, hq, hl, h => by
    simp only [SlashProof.concatBytes, List.append_assoc] at h
    obtain ⟨hd, h1⟩ := SlashProof.toBytes_append_inj p q _ _ hp.1 hq.1 h
    obtain ⟨htl, h2⟩ := SlashProof.concatBytes_append_inj ps qs x y hp.2 hq.2 (Nat.succ.inj hl) h1
    exact ⟨by simp only [SlashProof.unsignedAll, hd, htl], h2⟩

end

/-- SHA-256 has no collision among the canonical bytes of these blocks -/
def NoCollision (S : Set Block) : Prop := ∀ a ∈ S, ∀ b ∈ S, a.hash = b.hash → a.toBytes = b.toBytes

theorem NoCollision.mono {S T : Set Block} (hT : NoCollision T) (h : S ⊆ T) : NoCollision S :=
  fun a ha b hb => hT a (h ha) b (h hb)

/-- blocks with one hash are one block up to signatures -/
theorem Block.unsigned_eq_of_hash_eq {S : Set Block} (hS : NoCollision S) {a b : Block} (ha : a ∈ S) (hb : b ∈ S)
    (hsa : a.Sized) (hsb : b.Sized) (h : a.hash = b.hash) : a.unsigned = b.unsigned :=
  (Block.toBytes_append_inj a b [] [] hsa hsb (by rw [hS a ha b hb h])).1

end RustProof
