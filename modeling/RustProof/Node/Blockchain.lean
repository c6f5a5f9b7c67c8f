/-
The ledger of a node (`rp-node/src/mempool.rs`, `rp-node/src/blockchain.rs`): the block tree, the head and its state, the
mempool; importing a block, restoring from a snapshot, serving a range of heights.

`get_latest_block` panics without a head (`Fault.missingHead`). The two walks from the head towards the root have the
number of stored blocks as fuel and say `Fault.diverges` when it is not enough.

What an import does is said once, over the blocks alone (`Blockchain.blockAt`; the children lists are written and never
read): `addBlock_ok` and `addBlock_error`. The results about engines use these two and never unfold `addBlock`.
-/
import RustProof.Core.Chain

namespace RustProof

variable [Crypto]

/-! ## Mempool -/

/-- the order of `Ord for Transaction`: fees descending, then hashes ascending -/
def Transaction.order (tx : Transaction) : UInt64ᵒᵈ ×ₗ Hash := toLex (OrderDual.toDual tx.fee, tx.hash)

/-- `BTreeSet<Transaction>` as the map from the order to its transaction -/
structure Mempool where
  transactions : BTreeMap (UInt64ᵒᵈ ×ₗ Hash) Transaction
  maxSize : ℕ

namespace Mempool

def new (maxSize : ℕ) : Mempool := ⟨.empty, maxSize⟩

/-- `add_transaction(&mut self, tx)`: the mempool afterwards and what the call returned -/
def submit (m : Mempool) (tx : Transaction) : Mempool × Except String Bool :=
  if m.transactions.contains tx.order then (m, .ok false)
  else if m.transactions.len < m.maxSize then ({ m with transactions := m.transactions.insert tx.order tx }, .ok true)
  else
    match m.transactions.entries.getLast? with
    | some (_, lowest) =>
      if tx.fee > lowest.fee then
        ({ m with transactions := (m.transactions.remove lowest.order).insert tx.order tx }, .ok true)
      else (m, .error "Transaction fee too low to enter mempool")
    | none => (m, .error "Failed to evict lowest fee transaction")

/-- `add_transaction` for a caller that goes on if it returned `Ok` -/
def addTransaction (m : Mempool) (tx : Transaction) : Except String (Mempool × Bool) :=
  (m.submit tx).2.map fun added => ((m.submit tx).1, added)

def removeTransaction (m : Mempool) (hash : Hash) : Mempool :=
  { m with transactions := m.transactions.retain fun _ tx => decide (tx.hash ≠ hash) }

end Mempool

/-! ## Blockchain -/

structure BlockNode where
  block : Block
  children : List Hash

structure Blockchain where
  chain : BTreeMap Hash BlockNode
  headHash : Hash
  state : State
  mempool : Mempool

inductive NodeError where
  | blockError (error : BlockError)
  | parentBlockNotFoundError
deriving DecidableEq, Repr

structure ImportedBlock where
  nextState : State
  becameHead : Bool

def genesisBlock : Block :=
  { height := 0
    slot := 0
    previousHash := U8Array.zero 32
    validator := genesisVerifyingKey
    transactions := []
    signature := none
    slashProofs := []
    stateRoot := U8Array.zero 32 }

theorem genesisBlock_sized : genesisBlock.Sized := by
  have hnil : (0 : ℕ) < 2 ^ 64 := by decide
  exact ⟨⟨hnil, trivial⟩, hnil, trivial⟩

namespace Blockchain

def new : Blockchain :=
  { chain := BTreeMap.empty.insert genesisBlock.hash ⟨genesisBlock, []⟩
    headHash := genesisBlock.hash
    state := State.new
    mempool := Mempool.new 10000 }

def getLatestBlock (bc : Blockchain) : Except Fault Block :=
  match bc.chain.get? bc.headHash with
  | some node => .ok node.block
  | none => .error .missingHead

def restoreHead (block : Block) (state : State) : Blockchain :=
  { chain := BTreeMap.empty.insert block.hash ⟨block, []⟩
    headHash := block.hash
    state := state
    mempool := Mempool.new 10000 }

/-- `while let Some(node) = self.chain.get(&current_hash)` of `earliest_contiguous_height` -/
def earliestLoop (bc : Blockchain) : (fuel : ℕ) → Hash → UInt64 → Except Fault UInt64
  | 0, _, _ => .error .diverges
  | fuel + 1, currentHash, earliestHeight =>
    match bc.chain.get? currentHash with
    | none => .ok earliestHeight
    | some node =>
      if node.block.height = 0 ∨ bc.chain.contains node.block.previousHash = false then .ok node.block.height
      else bc.earliestLoop fuel node.block.previousHash node.block.height

def earliestContiguousHeight (bc : Blockchain) : Except Fault UInt64 := do
  let latest ← bc.getLatestBlock
  bc.earliestLoop (bc.chain.len + 1) bc.headHash latest.height

def addTransaction (bc : Blockchain) (tx : Transaction) : Except String (Blockchain × Bool) :=
  if bc.state.isValidTx tx then do
    let (mempool, added) ← bc.mempool.addTransaction tx
    pure ({ bc with mempool := mempool }, added)
  else .error "Invalid transaction"

/-- the parent's list of children, with `blockHash` once -/
def linkChild (chain : BTreeMap Hash BlockNode) (previousHash blockHash : Hash) : BTreeMap Hash BlockNode :=
  match chain.get? previousHash with
  | some node =>
    if node.children.contains blockHash then chain
    else chain.insert previousHash { node with children := node.children ++ [blockHash] }
  | none => chain

/-- `self.chain.entry(block_hash).or_insert_with(..)` -/
def storeBlock (chain : BTreeMap Hash BlockNode) (blockHash : Hash) (block : Block) : BTreeMap Hash BlockNode :=
  if chain.contains blockHash then chain else chain.insert blockHash ⟨block, []⟩

/-- a refused block leaves the ledger as it is -/
def addBlock (ck : OverflowChecks) (bc : Blockchain) (block : Block) (parentState : State) :
    Except Fault (Except NodeError (Blockchain × ImportedBlock)) :=
  match bc.chain.get? block.previousHash with
  | none => .ok (.error .parentBlockNotFoundError)
  | some parentNode =>
    match validateAndApplyBlock ck parentNode.block parentState block with
    | .error f => .error f
    | .ok (.error e) => .ok (.error (.blockError e))
    | .ok (.ok applied) =>
      let blockHash := block.hash
      let bc' := { bc with chain := storeBlock (linkChild bc.chain block.previousHash blockHash) blockHash block }
      match bc'.getLatestBlock with
      | .error f => .error f
      | .ok latest =>
        if shouldReplaceHead blockHash block latest bc'.headHash then
          let mempool := block.transactions.foldl (fun m tx => m.removeTransaction tx.hash) bc'.mempool
          .ok (.ok ({ bc' with headHash := blockHash, state := applied.nextState, mempool := mempool },
            ⟨applied.nextState, true⟩))
        else .ok (.ok (bc', ⟨applied.nextState, false⟩))

/-- `while let Some(node) = self.chain.get(&current_hash)` of `get_blocks`, newest block first -/
def collectLoop (bc : Blockchain) (fromHeight toHeight earliest : UInt64) :
    (fuel : ℕ) → Hash → Except Fault (List Block)
  | 0, _ => .error .diverges
  | fuel + 1, currentHash =>
    match bc.chain.get? currentHash with
    | none => .ok []
    | some node =>
      let here := if node.block.height ≥ fromHeight ∧ node.block.height ≤ toHeight then [node.block] else []
      if node.block.height = earliest ∨ node.block.height = 0 then .ok here
      else
        match bc.collectLoop fromHeight toHeight earliest fuel node.block.previousHash with
        | .error f => .error f
        | .ok older => .ok (here ++ older)

def getBlocks (bc : Blockchain) (fromHeight toHeight : UInt64) : Except Fault (List Block) :=
  if fromHeight > toHeight then .ok []
  else
    match bc.earliestContiguousHeight with
    | .error f => .error f
    | .ok earliest =>
      match bc.getLatestBlock with
      | .error f => .error f
      | .ok latest =>
        if fromHeight < earliest ∨ fromHeight > latest.height then .ok []
        else
          match bc.collectLoop fromHeight toHeight earliest (bc.chain.len + 1) bc.headHash with
          | .error f => .error f
          | .ok blocks => .ok blocks.reverse

/-! ## The blocks of the tree -/

/-- the block stored under a hash -/
def blockAt (bc : Blockchain) (h : Hash) : Option Block := (bc.chain.get? h).map BlockNode.block

theorem getLatestBlock_ok_iff {bc : Blockchain} {b : Block} :
    bc.getLatestBlock = .ok b ↔ bc.blockAt bc.headHash = some b := by
  unfold getLatestBlock blockAt
  cases bc.chain.get? bc.headHash <;> simp

theorem getLatestBlock_error {bc : Blockchain} {f : Fault} (h : bc.getLatestBlock = .error f) :
    bc.blockAt bc.headHash = none := by
  unfold getLatestBlock at h
  unfold blockAt
  split at h
  · cases h
  · rename_i hnone
    rw [hnone]
    rfl

theorem linkChild_block (chain : BTreeMap Hash BlockNode) (previousHash blockHash h : Hash) :
    ((linkChild chain previousHash blockHash).get? h).map BlockNode.block = (chain.get? h).map BlockNode.block := by
  unfold linkChild
  cases hp : chain.get? previousHash with
  | none => rfl
  | some node =>
    simp only
    split_ifs
    · rfl
    · rw [BTreeMap.get?_insert]
      split_ifs with hh
      · rw [← hh, hp]
        rfl
      · rfl

theorem storeBlock_block (chain : BTreeMap Hash BlockNode) (blockHash h : Hash) (block : Block) :
    ((storeBlock chain blockHash block).get? h).map BlockNode.block =
      if h = blockHash then some (((chain.get? h).map BlockNode.block).getD block)
      else (chain.get? h).map BlockNode.block := by
  unfold storeBlock BTreeMap.contains
  by_cases hh : h = blockHash
  · subst hh
    cases hc : chain.get? h with
    | none => simp
    | some node => simp [hc]
  · rw [if_neg hh]
    split_ifs
    · rfl
    · rw [BTreeMap.get?_insert_ne _ _ (Ne.symm hh)]

/-- the block stored under `h` after `b` was imported: the first block of a hash stays -/
def blockAfter (bc : Blockchain) (b : Block) (h : Hash) : Option Block :=
  if h = b.hash then some ((bc.blockAt h).getD b) else bc.blockAt h

theorem blockAfter_of_some {bc : Blockchain} {h : Hash} {x : Block} (b : Block) (hx : bc.blockAt h = some x) :
    bc.blockAfter b h = some x := by
  unfold blockAfter
  rw [hx]
  split_ifs <;> rfl

theorem blockAfter_cases {bc : Blockchain} {b x : Block} {h : Hash} (hx : bc.blockAfter b h = some x) :
    bc.blockAt h = some x ∨ bc.blockAt h = none ∧ h = b.hash ∧ x = b := by
  unfold blockAfter at hx
  split_ifs at hx with hh
  · cases hb : bc.blockAt h with
    | none =>
      rw [hb] at hx
      exact .inr ⟨rfl, hh, (Option.some.inj hx).symm⟩
    | some y =>
      rw [hb] at hx
      exact .inl hx
  · exact .inl hx

/-- what a successful import did -/
structure Added (ck : OverflowChecks) (bc : Blockchain) (b : Block) (s : State) (bc' : Blockchain)
    (imported : ImportedBlock) : Prop where
  accepted : ∃ parent, bc.blockAt b.previousHash = some parent ∧ Accepted ck parent s b imported.nextState
  blocks : ∀ h, bc'.blockAt h = bc.blockAfter b h
  choice : ∃ latest, bc.blockAfter b bc.headHash = some latest ∧
    imported.becameHead = shouldReplaceHead b.hash b latest bc.headHash
  head : bc'.headHash = if imported.becameHead then b.hash else bc.headHash
  state : bc'.state = if imported.becameHead then imported.nextState else bc.state

theorem addBlock_ok {ck : OverflowChecks} {bc bc' : Blockchain} {b : Block} {s : State} {imported : ImportedBlock}
    (h : bc.addBlock ck b s = .ok (.ok (bc', imported))) : Added ck bc b s bc' imported := by
  unfold addBlock at h
  split at h
  · cases h
  rename_i parentNode hparent
  split at h
  · cases h
  · cases h
  rename_i applied hvalid
  have hblocks : ∀ h', ((storeBlock (linkChild bc.chain b.previousHash b.hash) b.hash b).get? h').map BlockNode.block =
      bc.blockAfter b h' := fun h' => by
    rw [storeBlock_block, linkChild_block]
    rfl
  have hacc : ∃ parent, bc.blockAt b.previousHash = some parent ∧ Accepted ck parent s b applied.nextState :=
    ⟨parentNode.block, by rw [blockAt, hparent]; rfl, validate_ok_iff.1 hvalid⟩
  simp only at h
  split at h
  · cases h
  rename_i latest hlatest
  have hlatest : bc.blockAfter b bc.headHash = some latest := by
    rw [← hblocks]
    exact getLatestBlock_ok_iff.1 hlatest
  split_ifs at h with hreplace
  · cases h
    exact ⟨hacc, hblocks, ⟨latest, hlatest, hreplace.symm⟩, rfl, rfl⟩
  · cases h
    exact ⟨hacc, hblocks, ⟨latest, hlatest, by simpa using hreplace⟩, rfl, rfl⟩

/-- a block accepted on its stored parent is imported -/
theorem addBlock_of_accepted {ck : OverflowChecks} {bc : Blockchain} {b parent head : Block} {s s' : State}
    (hparent : bc.blockAt b.previousHash = some parent) (hhead : bc.blockAt bc.headHash = some head)
    (hacc : Accepted ck parent s b s') :
    ∃ bc' imported, bc.addBlock ck b s = .ok (.ok (bc', imported)) ∧ imported.nextState = s' := by
  obtain ⟨node, hnode, rfl⟩ := Option.map_eq_some_iff.1 hparent
  have hlatest : (storeBlock (linkChild bc.chain b.previousHash b.hash) b.hash b).get? bc.headHash ≠ none := by
    intro hnone
    have hblock := storeBlock_block (linkChild bc.chain b.previousHash b.hash) b.hash bc.headHash b
    rw [hnone, linkChild_block] at hblock
    change none = bc.blockAfter b bc.headHash at hblock
    rw [blockAfter_of_some b hhead] at hblock
    cases hblock
  obtain ⟨hd, hhd⟩ := Option.ne_none_iff_exists'.1 hlatest
  unfold addBlock
  simp only [hnode, validate_ok_iff.2 hacc, getLatestBlock, hhd]
  split_ifs
  · exact ⟨_, _, rfl, rfl⟩
  · exact ⟨_, _, rfl, rfl⟩

/-- an import panics only in the arithmetic of block application, as long as there is a head -/
theorem addBlock_error {ck : OverflowChecks} {bc : Blockchain} {b head : Block} {s : State} {f : Fault}
    (hhead : bc.blockAt bc.headHash = some head) (h : bc.addBlock ck b s = .error f) :
    ∃ parent, validateAndApplyBlock ck parent s b = .error f := by
  unfold addBlock at h
  split at h
  · cases h
  rename_i parentNode hparent
  split at h
  · rename_i f' hvalid
    cases h
    exact ⟨parentNode.block, hvalid⟩
  · cases h
  · simp only at h
    split at h
    · rename_i f' hlatest
      have hnone := getLatestBlock_error hlatest
      rw [blockAt, storeBlock_block, linkChild_block] at hnone
      change bc.blockAfter b bc.headHash = none at hnone
      rw [blockAfter, hhead] at hnone
      split_ifs at hnone
    · split_ifs at h

/-- a refused import was refused by the parent or by block application -/
theorem addBlock_refused {ck : OverflowChecks} {bc : Blockchain} {b : Block} {s : State} {e : NodeError}
    (h : bc.addBlock ck b s = .ok (.error e)) :
    bc.blockAt b.previousHash = none ∨
      ∃ parent err, bc.blockAt b.previousHash = some parent ∧
        validateAndApplyBlock ck parent s b = .ok (.error err) := by
  unfold addBlock at h
  split at h
  · rename_i hnone
    exact .inl (by rw [blockAt, hnone]; rfl)
  rename_i parentNode hparent
  split at h
  · cases h
  · rename_i err hvalid
    exact .inr ⟨parentNode.block, err, by rw [blockAt, hparent]; rfl, hvalid⟩
  · simp only at h
    split at h
    · cases h
    · split_ifs at h <;> cases h

/-! ## With a head, a walk fails only by not ending -/

theorem earliestLoop_error {bc : Blockchain} {fuel : ℕ} {h : Hash} {height : UInt64} {f : Fault}
    (he : bc.earliestLoop fuel h height = .error f) : f = .diverges := by
  induction fuel generalizing h height with
  | zero => exact (Except.error.inj he).symm
  | succ fuel ih =>
    rw [earliestLoop] at he
    split at he
    · cases he
    · split at he
      · cases he
      · exact ih he

theorem earliestContiguousHeight_error {bc : Blockchain} {head : Block} {f : Fault}
    (hhead : bc.blockAt bc.headHash = some head) (he : bc.earliestContiguousHeight = .error f) : f = .diverges := by
  unfold earliestContiguousHeight at he
  rw [getLatestBlock_ok_iff.2 hhead] at he
  exact earliestLoop_error he

theorem collectLoop_error {bc : Blockchain} {a b c : UInt64} {fuel : ℕ} {h : Hash} {f : Fault}
    (he : bc.collectLoop a b c fuel h = .error f) : f = .diverges := by
  induction fuel generalizing h with
  | zero => exact (Except.error.inj he).symm
  | succ fuel ih =>
    rw [collectLoop] at he
    split at he
    · cases he
    · rename_i node hnode
      simp only at he
      by_cases hstop : node.block.height = c ∨ node.block.height = 0
      · rw [if_pos hstop] at he
        cases he
      · rw [if_neg hstop] at he
        split at he
        · rename_i f' hf
          cases he
          exact ih hf
        · cases he

theorem getBlocks_error {bc : Blockchain} {head : Block} {a b : UInt64} {f : Fault}
    (hhead : bc.blockAt bc.headHash = some head) (he : bc.getBlocks a b = .error f) : f = .diverges := by
  unfold getBlocks at he
  rw [getLatestBlock_ok_iff.2 hhead] at he
  split at he
  · cases he
  · split at he
    · rename_i f' hf
      cases he
      exact earliestContiguousHeight_error hhead hf
    · simp only at he
      split at he
      · cases he
      · split at he
        · rename_i f' hf
          cases he
          exact collectLoop_error hf
        · cases he

end Blockchain

end RustProof
