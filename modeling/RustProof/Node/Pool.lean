/-
The mempool along runs of the ledger (`Blockchain::add_transaction`, `Blockchain::add_block`).

A transaction enters the mempool with the sequence number its sender's nonce has at the head, and every transaction of the
path to the head is behind that nonce (`Spent`), so what is already included is refused. What is included later must be
removed: `add_block` does so when a block becomes head, for that block's own transactions. If the new head extends the old
one, that is all that is newly included. If it is on another branch, the blocks between the fork and its parent become
canonical with it, and their transactions stay in the mempool (`pool_holds_included`).

`Extends` is the condition under which this does not happen. In every run whose imports meet it the mempool holds no
included transaction (`pool_never_holds_included`): one step keeps `PoolInv` (`PoolInv.submit`, `PoolInv.imported`).
-/
import RustProof.Core.Replay
import RustProof.Node.Ledger

namespace RustProof

section Pool

variable [Crypto]

/-! ## Runs of the ledger -/

/-- a call of the ledger -/
inductive ChainOp where
  | addTransaction (tx : Transaction)
  | addBlock (block : Block) (parentState : State)

namespace ChainOp

def blocks : ChainOp → List Block
  | .addTransaction _ => []
  | .addBlock block _ => [block]

def transactions : ChainOp → List Transaction
  | .addTransaction tx => [tx]
  | .addBlock block _ => block.transactions

/-- the ledger after the call; a refused call leaves it as it is -/
def exec (ck : OverflowChecks) (bc : Blockchain) : ChainOp → Except Fault Blockchain
  | .addTransaction tx =>
    match bc.addTransaction tx with
    | .ok (bc', _) => .ok bc'
    | .error _ => .ok bc
  | .addBlock block parentState =>
    match bc.addBlock ck block parentState with
    | .error f => .error f
    | .ok (.error _) => .ok bc
    | .ok (.ok (bc', _)) => .ok bc'

/-- an import on a stored parent is given the parent's state: the replay of the path to it -/
def Correct (ck : OverflowChecks) (root : Block) (s0 : State) (bc : Blockchain) : ChainOp → Prop
  | .addTransaction _ => True
  | .addBlock block parentState => bc.blockAt block.previousHash ≠ none →
    ∃ path, Path bc root path block.previousHash ∧ replay ck root s0 path = .ok (.ok parentState)

end ChainOp

/-- the transaction's number is behind its sender's nonce -/
def Spent (s : State) (t : Transaction) : Prop :=
  t.sequence.toNat < (s.nonces.getD (verifyingKeyToBytes t.sender) 0).toNat

/-- a new ledger, or one restored to a block with a state in which the block's own transactions are spent, as they are in
its post-state (`Accepted.spent`) -/
inductive ChainStart : Blockchain → Block → State → Prop
  | new : ChainStart .new genesisBlock .new
  | restoreHead {root : Block} {s0 : State} (sized : root.Sized) (spent : ∀ t ∈ root.transactions, Spent s0 t) :
      ChainStart (.restoreHead root s0) root s0

/-- calls with correct parent states from a start on, all meeting the condition `C` -/
inductive ChainRun (C : Block → Blockchain → ChainOp → Prop) (ck : OverflowChecks) (root : Block) (s0 : State) :
    List ChainOp → Blockchain → Prop
  | start {bc : Blockchain} (start : ChainStart bc root s0) : ChainRun C ck root s0 [] bc
  | step {ops : List ChainOp} {bc bc' : Blockchain} {op : ChainOp} (run : ChainRun C ck root s0 ops bc)
      (correct : op.Correct ck root s0 bc) (cond : C root bc op) (exec : op.exec ck bc = .ok bc') :
      ChainRun C ck root s0 (ops ++ [op]) bc'

/-- the block is on the way from the block stored under `h` back to the root, both included -/
inductive OnPath (bc : Blockchain) (root : Block) : Hash → Block → Prop
  | here {h : Hash} {b : Block} (stored : bc.blockAt h = some b) : OnPath bc root h b
  | above {h : Hash} {b c : Block} (stored : bc.blockAt h = some b) (notRoot : h ≠ root.hash)
      (rest : OnPath bc root b.previousHash c) : OnPath bc root h c

/-- the transactions of the mempool -/
def Mempool.holds (m : Mempool) (tx : Transaction) : Prop := ∃ k, m.transactions.get? k = some tx

/-- a transaction with this hash is contained in a block on the path to `h` -/
def Included (bc : Blockchain) (root : Block) (h : Hash) (hash : Hash) : Prop :=
  ∃ c, OnPath bc root h c ∧ ∃ t ∈ c.transactions, t.hash = hash

/-- Nothing is included behind the ledger's back: a block that is about to become head extends the head, or no transaction
of the mempool is included on the path to its parent; and the nonces of its senders do not wrap. -/
def Extends (root : Block) (bc : Blockchain) : ChainOp → Prop
  | .addTransaction _ => True
  | .addBlock block parentState =>
    (∀ latest, bc.getLatestBlock = .ok latest → shouldReplaceHead block.hash block latest bc.headHash = true →
      block.previousHash = bc.headHash ∨
        ∀ tx, bc.mempool.holds tx → ¬ Included bc root block.previousHash tx.hash) ∧
    ∀ k, (parentState.nonces.getD k 0).toNat + (sentBy k block.transactions).length < 2 ^ 64

/-! ## What the mempool holds after a call -/

theorem Mempool.holds_of_addTransaction {m m' : Mempool} {tx : Transaction} {added : Bool}
    (h : m.addTransaction tx = .ok (m', added)) {t : Transaction} (ht : m'.holds t) : t = tx ∨ m.holds t := by
  obtain ⟨k, hk⟩ := ht
  have hinsert : ∀ l : BTreeMap (UInt64ᵒᵈ ×ₗ Hash) Transaction, (l.insert tx.order tx).get? k = some t →
      t = tx ∨ l.get? k = some t := by
    intro l hl
    rw [BTreeMap.get?_insert] at hl
    split_ifs at hl
    · exact .inl (Option.some.inj hl).symm
    · exact .inr hl
  unfold addTransaction submit at h
  split_ifs at h with hdup hroom
  · cases h
    exact .inr ⟨k, hk⟩
  · cases h
    exact (hinsert _ hk).imp_right fun hold => ⟨k, hold⟩
  · split at h
    · split_ifs at h
      · cases h
        refine (hinsert _ hk).imp_right fun hold => ⟨k, ?_⟩
        rw [BTreeMap.get?_remove] at hold
        split_ifs at hold
        exact hold
      · cases h
    · cases h

theorem addTransaction_inv {bc bc' : Blockchain} {tx : Transaction} {added : Bool}
    (h : bc.addTransaction tx = .ok (bc', added)) :
    bc.state.isValidTx tx = true ∧ bc'.chain = bc.chain ∧ bc'.headHash = bc.headHash ∧ bc'.state = bc.state ∧
      ∀ t, bc'.mempool.holds t → t = tx ∨ bc.mempool.holds t := by
  unfold Blockchain.addTransaction at h
  split_ifs at h with hvalid
  cases hm : bc.mempool.addTransaction tx with
  | error e => rw [hm] at h; cases h
  | ok r =>
    rw [hm] at h
    cases h
    exact ⟨hvalid, rfl, rfl, rfl, fun t ht => Mempool.holds_of_addTransaction hm ht⟩

theorem Mempool.holds_of_removeTransaction {m : Mempool} {hash : Hash} {t : Transaction}
    (h : (m.removeTransaction hash).holds t) : m.holds t ∧ t.hash ≠ hash := by
  obtain ⟨k, hk⟩ := h
  have hmem := (BTreeMap.mem_entries_iff _ k t).2 hk
  simp only [removeTransaction, BTreeMap.retain, List.mem_filter, decide_eq_true_eq] at hmem
  exact ⟨⟨k, (BTreeMap.mem_entries_iff _ k t).1 hmem.1⟩, hmem.2⟩

theorem Mempool.holds_of_removeAll {txs : List Transaction} {m : Mempool} {t : Transaction}
    (h : (txs.foldl (fun m tx => m.removeTransaction tx.hash) m).holds t) :
    m.holds t ∧ ∀ u ∈ txs, t.hash ≠ u.hash := by
  induction txs generalizing m with
  | nil => exact ⟨h, fun u hu => absurd hu List.not_mem_nil⟩
  | cons u txs ih =>
    obtain ⟨hrest, hne⟩ := ih h
    obtain ⟨hm, hu⟩ := Mempool.holds_of_removeTransaction hrest
    refine ⟨hm, fun v hv => ?_⟩
    rcases List.mem_cons.1 hv with rfl | hv
    · exact hu
    · exact hne v hv

/-- an import touches the mempool when its block becomes head, and only for the block's own transactions -/
theorem addBlock_mempool {ck : OverflowChecks} {bc bc' : Blockchain} {b : Block} {s : State} {imported : ImportedBlock}
    (h : bc.addBlock ck b s = .ok (.ok (bc', imported))) :
    bc'.mempool = if imported.becameHead then b.transactions.foldl (fun m tx => m.removeTransaction tx.hash) bc.mempool
      else bc.mempool := by
  unfold Blockchain.addBlock at h
  split at h
  · cases h
  split at h
  · cases h
  · cases h
  simp only at h
  split at h
  · cases h
  split_ifs at h
  · cases h
    rfl
  · cases h
    rfl

/-! ## Included transactions are spent -/

/-- A block whose senders' nonces do not wrap spends its transactions, and what was spent stays spent. -/
theorem Accepted.spent {ck : OverflowChecks} {p b : Block} {s s' : State} (h : Accepted ck p s b s')
    (hwrap : ∀ k, (s.nonces.getD k 0).toNat + (sentBy k b.transactions).length < 2 ^ 64) :
    (∀ t ∈ b.transactions, Spent s' t) ∧ ∀ t, Spent s t → Spent s' t := by
  have hseq : ∀ k, (sentBy k b.transactions).map (fun t => t.sequence.toNat) =
      List.range' (s.nonces.getD k 0).toNat (sentBy k b.transactions).length ∧
      (s'.nonces.getD k 0).toNat = (s.nonces.getD k 0).toNat + (sentBy k b.transactions).length := by
    intro k
    have hrun := opRun_sequence (k := k) h.ops rfl (by rw [ops_transactions]; exact hwrap k)
    rwa [ops_transactions] at hrun
  constructor
  · intro t ht
    obtain ⟨hnumbers, hnonce⟩ := hseq (verifyingKeyToBytes t.sender)
    have hsent : t ∈ sentBy (verifyingKeyToBytes t.sender) b.transactions :=
      List.mem_filter.2 ⟨ht, decide_eq_true rfl⟩
    have hmem : t.sequence.toNat ∈ List.range' (s.nonces.getD (verifyingKeyToBytes t.sender) 0).toNat
        (sentBy (verifyingKeyToBytes t.sender) b.transactions).length := by
      rw [← hnumbers]
      exact List.mem_map_of_mem hsent
    have hlt := (List.mem_range'_1.1 hmem).2
    rw [Spent, hnonce]
    exact hlt
  · intro t ht
    unfold Spent at ht ⊢
    rw [(hseq (verifyingKeyToBytes t.sender)).2]
    omega

/-- a spent transaction is not valid again, under any of its variants with the same hash -/
theorem hash_ne_of_spent {s : State} {t tx : Transaction} (hc : t.hash = tx.hash → t.toBytes = tx.toBytes)
    (hspent : Spent s t) (hvalid : s.isValidTx tx = true) : t.hash ≠ tx.hash := by
  intro heq
  obtain ⟨hsender, hseq⟩ := Transaction.sender_sequence_of_toBytes (hc heq)
  have hnonce := ((s.isValidTx_iff tx).1 hvalid).2.1
  unfold Spent at hspent
  rw [hsender, hseq, hnonce] at hspent
  exact lt_irrefl _ hspent

/-! ## The invariant -/

structure PoolInv (ck : OverflowChecks) (U : BlockUniverse) (T : Set Transaction) (root : Block) (s0 : State)
    (bc : Blockchain) : Prop where
  tree : TreeInv ck U root s0 bc
  /-- the transactions on the path to a block are spent in its state -/
  spent : ∀ h s, StateAt ck U root s0 h s → ∀ c, OnPath bc root h c → ∀ t ∈ c.transactions, Spent s t
  known : ∀ tx, bc.mempool.holds tx → tx ∈ T
  pool : ∀ tx, bc.mempool.holds tx → ¬ Included bc root bc.headHash tx.hash

section Invariant

variable {ck : OverflowChecks} {U : BlockUniverse} {T : Set Transaction} {root : Block} {s0 : State}

theorem OnPath.mem {bc : Blockchain} (hroot : root ∈ U.blocks) (hT : TreeInv ck U root s0 bc) {h : Hash} {c : Block}
    (hc : OnPath bc root h c) : c ∈ U.blocks := by
  induction hc with
  | here hstored => exact hT.mem hroot hstored
  | above _ _ _ ih => exact ih

/-- the way back from the root is the root -/
theorem OnPath.of_root {bc : Blockchain} (hT : TreeInv ck U root s0 bc) {c : Block} (hc : OnPath bc root root.hash c) :
    c = root := by
  cases hc with
  | here hstored => exact Option.some.inj (hstored.symm.trans hT.rootStored)
  | above _ hne _ => exact absurd rfl hne

/-- a path of stored blocks that replays leads to a known state -/
theorem Path.stateAt {bc : Blockchain} (hroot : root ∈ U.blocks) (hT : TreeInv ck U root s0 bc) {path : List Block}
    {h : Hash} (hpath : Path bc root path h) {s : State} (hreplay : replay ck root s0 path = .ok (.ok s)) :
    Derived ck U root s0 (path.getLastD root) s ∧ (path.getLastD root).hash = h := by
  induction hpath generalizing s with
  | root =>
    cases hreplay
    exact ⟨.root, rfl⟩
  | @child l h b hparent hlink hstored ih =>
    obtain ⟨s1, hl, hb⟩ := replay_append.1 hreplay
    obtain ⟨s2, hacc, hnil⟩ := replay_cons_ok_iff.1 hb
    cases hnil
    obtain ⟨hd, hh⟩ := ih hl
    have hlast : (l ++ [b]).getLastD root = b := by simp
    rw [hlast]
    exact ⟨.child hd (hlink.trans hh.symm) (hT.mem hroot hstored) hacc, rfl⟩

/-! ## One call -/

theorem PoolInv.submit {bc bc' : Blockchain} {tx : Transaction} {added : Bool} (hroot : root ∈ U.blocks)
    (hcol : ∀ t ∈ T, ∀ u ∈ T, t.hash = u.hash → t.toBytes = u.toBytes)
    (hblocks : ∀ b ∈ U.blocks, ∀ t ∈ b.transactions, t ∈ T) (hI : PoolInv ck U T root s0 bc) (htx : tx ∈ T)
    (h : bc.addTransaction tx = .ok (bc', added)) : PoolInv ck U T root s0 bc' := by
  obtain ⟨hvalid, hchain, hhead, hstate, hholds⟩ := addTransaction_inv h
  -- the tree is the old one
  have hat : ∀ x, bc'.blockAt x = bc.blockAt x := fun x => by rw [Blockchain.blockAt, hchain]; rfl
  have hpath : ∀ {x c}, OnPath bc' root x c → OnPath bc root x c := by
    intro x c hc
    induction hc with
    | here hstored => exact .here (hat _ ▸ hstored)
    | above hstored hne _ ih => exact .above (hat _ ▸ hstored) hne ih
  have htree : TreeInv ck U root s0 bc' := by
    obtain ⟨h1, h2, h3, h4, h5, h6⟩ := hI.tree
    refine ⟨?_, ?_, ?_, ?_, ?_, ?_⟩
    · rw [hat]; exact h1
    · intro x b hb; exact h2 x b (hat x ▸ hb)
    · intro x b hb; exact h3 x b (hat x ▸ hb)
    · intro x b hb hne; rw [hat]; exact h4 x b (hat x ▸ hb) hne
    · rw [hhead, hat]
      obtain ⟨head, hh, hmax⟩ := h5
      exact ⟨head, hh, fun x b hb => hmax x b (hat x ▸ hb)⟩
    · rw [hhead, hstate]; exact h6
  refine ⟨htree, fun x s hs c hc => hI.spent x s hs c (hpath hc), fun t ht => ?_, fun t ht => ?_⟩
  · rcases hholds t ht with rfl | hold
    · exact htx
    · exact hI.known t hold
  · rintro ⟨c, hc, u, hu, heq⟩
    rw [hhead] at hc
    rcases hholds t ht with rfl | hold
    · -- it was valid at the head, and what is included is spent there
      have hspent := hI.spent _ _ hI.tree.state c (hpath hc) u hu
      have huT := hblocks c ((hpath hc).mem hroot hI.tree) u hu
      exact hash_ne_of_spent (fun he => hcol u huT t htx he) hspent hvalid heq
    · exact hI.pool t hold ⟨c, hpath hc, u, hu, heq⟩

/-- an import leaves the way back from a stored block as it was -/
theorem OnPath.of_added {bc bc' : Blockchain} {b : Block} {s : State} {imported : ImportedBlock}
    (hT : TreeInv ck U root s0 bc) (hadd : Blockchain.Added ck bc b s bc' imported) {h : Hash} {c : Block}
    (hc : OnPath bc' root h c) (hold : ∃ v, bc.blockAt h = some v) : OnPath bc root h c := by
  have hsame : ∀ {x v w}, bc.blockAt x = some v → bc'.blockAt x = some w → bc.blockAt x = some w := by
    intro x v w hv hw
    rw [hadd.blocks, Blockchain.blockAfter_of_some b hv] at hw
    rw [hv, hw]
  induction hc with
  | here hstored =>
    obtain ⟨v, hv⟩ := hold
    exact .here (hsame hv hstored)
  | above hstored hne _ ih =>
    obtain ⟨v, hv⟩ := hold
    have hx := hsame hv hstored
    exact .above hx hne (ih (hT.parents _ _ hx hne))

/-- the way back from a block that was not stored before its import: the block, then the way back from its parent -/
theorem OnPath.of_imported {bc bc' : Blockchain} {b : Block} {s : State} {imported : ImportedBlock}
    (hT : TreeInv ck U root s0 bc) (hadd : Blockchain.Added ck bc b s bc' imported) (hnew : bc.blockAt b.hash = none)
    {c : Block} (hc : OnPath bc' root b.hash c) : c = b ∨ OnPath bc root b.previousHash c := by
  have hat : bc'.blockAt b.hash = some b := by
    rw [hadd.blocks, Blockchain.blockAfter, if_pos rfl, hnew]
    rfl
  obtain ⟨p, hp, -⟩ := hadd.accepted
  cases hc with
  | here hstored => exact .inl (Option.some.inj (hstored.symm.trans hat))
  | above hstored _ hrest =>
    rw [Option.some.inj (hstored.symm.trans hat)] at hrest
    exact .inr (hrest.of_added hT hadd ⟨p, hp⟩)

/-- a block that outranks the head is not in the tree -/
theorem TreeInv.not_stored_of_replace {bc : Blockchain} (hroot : root ∈ U.blocks) (hT : TreeInv ck U root s0 bc)
    {b head : Block} (hb : b ∈ U.blocks) (hhead : bc.blockAt bc.headHash = some head)
    (hreplace : shouldReplaceHead b.hash b head bc.headHash = true) : bc.blockAt b.hash = none := by
  by_contra hstored
  obtain ⟨v, hv⟩ := Option.ne_none_iff_exists'.1 hstored
  obtain ⟨head', hhead', hmax⟩ := hT.head
  rw [hhead] at hhead'
  cases hhead'
  have hle := hmax _ _ hv
  rw [rank_congr (U.unsigned_eq (hT.mem hroot hv) hb (hT.keys _ _ hv))] at hle
  exact absurd hle (not_le.2 (shouldReplaceHead_iff.1 hreplace))

theorem PoolInv.imported {bc bc' : Blockchain} {b : Block} {s : State} {imported : ImportedBlock}
    (hroot : root ∈ U.blocks) (hI : PoolInv ck U T root s0 bc) (hb : b ∈ U.blocks)
    (hcorrect : (ChainOp.addBlock b s).Correct ck root s0 bc) (hcond : Extends root bc (.addBlock b s))
    (h : bc.addBlock ck b s = .ok (.ok (bc', imported))) : PoolInv ck U T root s0 bc' := by
  have hadd := Blockchain.addBlock_ok h
  have hmempool := addBlock_mempool h
  obtain ⟨hext, hwrap⟩ := hcond
  obtain ⟨p, hp, hacc⟩ := hadd.accepted
  obtain ⟨path, hpath, hreplay⟩ := hcorrect (by rw [hp]; exact Option.some_ne_none p)
  have hs : StateAt ck U root s0 b.previousHash s := ⟨_, hpath.stateAt hroot hI.tree hreplay⟩
  have hderived := hI.tree.derived_of_added hroot hb hs hadd
  refine ⟨hI.tree.added hroot hb hs hadd, ?_, ?_, ?_⟩
  · intro x s' hs' c hc t ht
    cases hx : bc.blockAt x with
    | some v => exact hI.spent x s' hs' c (hc.of_added hI.tree hadd ⟨v, hx⟩) t ht
    | none =>
      -- only the imported block is stored now and was not before
      have hxb : x = b.hash := by
        by_contra hne
        have hat : bc'.blockAt x = none := by rw [hadd.blocks, Blockchain.blockAfter, if_neg hne, hx]
        cases hc with
        | here hstored => rw [hat] at hstored; cases hstored
        | above hstored _ _ => rw [hat] at hstored; cases hstored
      subst hxb
      obtain rfl : s' = imported.nextState := hs'.functional hroot ⟨b, hderived, rfl⟩
      obtain ⟨hown, hkeep⟩ := hacc.spent hwrap
      rcases hc.of_imported hI.tree hadd hx with rfl | hold
      · exact hown t ht
      · exact hkeep t (hI.spent _ s hs c hold t ht)
  · intro tx htx
    rw [hmempool] at htx
    split_ifs at htx
    · exact hI.known tx (Mempool.holds_of_removeAll htx).1
    · exact hI.known tx htx
  · rintro tx htx ⟨c, hc, u, hu, heq⟩
    obtain ⟨head, hhead, -⟩ := hI.tree.head
    rw [hadd.head] at hc
    rw [hmempool] at htx
    cases hbecame : imported.becameHead with
    | false =>
      rw [hbecame] at hc htx
      exact hI.pool tx htx ⟨c, OnPath.of_added hI.tree hadd hc ⟨head, hhead⟩, u, hu, heq⟩
    | true =>
      rw [hbecame] at hc htx
      obtain ⟨hold, hnot⟩ := Mempool.holds_of_removeAll htx
      obtain ⟨latest, hlatest, hchoice⟩ := hadd.choice
      rw [Blockchain.blockAfter_of_some b hhead] at hlatest
      obtain rfl := Option.some.inj hlatest
      have hreplace : shouldReplaceHead b.hash b head bc.headHash = true := hchoice.symm.trans hbecame
      have hnew := hI.tree.not_stored_of_replace hroot hb hhead hreplace
      rcases OnPath.of_imported hI.tree hadd hnew hc with rfl | hparent
      · exact hnot u hu heq.symm
      · rcases hext head (Blockchain.getLatestBlock_ok_iff.2 hhead) hreplace with hprev | hfree
        · rw [hprev] at hparent
          exact hI.pool tx hold ⟨c, hparent, u, hu, heq⟩
        · exact hfree tx hold ⟨c, hparent, u, hu, heq⟩

/-! ## Whole runs -/

/-- a start holds the root alone, whose transactions are spent, and an empty mempool -/
theorem ChainStart.spec {bc : Blockchain} (h : ChainStart bc root s0) :
    (bc.chain = BTreeMap.empty.insert root.hash ⟨root, []⟩ ∧ bc.headHash = root.hash ∧ bc.state = s0) ∧
      bc.mempool = .new 10000 ∧ ∀ t ∈ root.transactions, Spent s0 t := by
  cases h with
  | new => exact ⟨⟨rfl, rfl, rfl⟩, rfl, fun t ht => absurd ht List.not_mem_nil⟩
  | restoreHead _ hspent => exact ⟨⟨rfl, rfl, rfl⟩, rfl, hspent⟩

theorem ChainStart.inv {bc : Blockchain} (hroot : root ∈ U.blocks) (h : ChainStart bc root s0) :
    PoolInv ck U T root s0 bc := by
  obtain ⟨⟨hchain, hhead, hstate⟩, hmempool, hspent⟩ := h.spec
  have htree : TreeInv ck U root s0 bc := TreeInv.single bc hchain hhead hstate
  have hempty : ∀ tx, ¬ bc.mempool.holds tx := by
    rintro tx ⟨k, hk⟩
    rw [hmempool] at hk
    cases hk
  refine ⟨htree, fun x s hs c hc t ht => ?_, fun tx htx => absurd htx (hempty tx), fun tx htx => absurd htx (hempty tx)⟩
  have hx : x = root.hash := by
    have hstored : ∃ v, bc.blockAt x = some v := by
      cases hc with
      | here hstored => exact ⟨_, hstored⟩
      | above hstored _ _ => exact ⟨_, hstored⟩
    obtain ⟨v, hv⟩ := hstored
    exact ((Blockchain.blockAt_single hchain).1 hv).1
  subst hx
  obtain rfl := hc.of_root htree
  obtain rfl : s = s0 := hs.functional hroot ⟨_, .root, rfl⟩
  exact hspent t ht

/-- one call that meets the condition keeps the invariant -/
theorem PoolInv.step {bc bc' : Blockchain} {op : ChainOp} (hroot : root ∈ U.blocks)
    (hcol : ∀ t ∈ T, ∀ u ∈ T, t.hash = u.hash → t.toBytes = u.toBytes)
    (hblocks : ∀ b ∈ U.blocks, ∀ t ∈ b.transactions, t ∈ T) (hI : PoolInv ck U T root s0 bc)
    (hop : ∀ b ∈ op.blocks, b ∈ U.blocks) (htxs : ∀ t ∈ op.transactions, t ∈ T)
    (hcorrect : op.Correct ck root s0 bc) (hcond : Extends root bc op) (hexec : op.exec ck bc = .ok bc') :
    PoolInv ck U T root s0 bc' := by
  cases op with
  | addTransaction tx =>
    simp only [ChainOp.exec] at hexec
    split at hexec
    · rename_i added h
      cases hexec
      exact hI.submit hroot hcol hblocks (htxs tx (List.mem_singleton_self tx)) h
    · cases hexec
      exact hI
  | addBlock b s =>
    simp only [ChainOp.exec] at hexec
    split at hexec
    · cases hexec
    · cases hexec
      exact hI
    · rename_i imported h
      cases hexec
      exact hI.imported hroot (hop b (List.mem_singleton_self b)) hcorrect hcond h

theorem ChainRun.inv {ops : List ChainOp} {bc : Blockchain} (hrun : ChainRun Extends ck root s0 ops bc)
    (hroot : root ∈ U.blocks) (hcol : ∀ t ∈ T, ∀ u ∈ T, t.hash = u.hash → t.toBytes = u.toBytes)
    (hblocks : ∀ b ∈ U.blocks, ∀ t ∈ b.transactions, t ∈ T) (hops : ∀ b ∈ ops.flatMap ChainOp.blocks, b ∈ U.blocks)
    (htxs : ∀ t ∈ ops.flatMap ChainOp.transactions, t ∈ T) : PoolInv ck U T root s0 bc := by
  induction hrun with
  | start hstart => exact hstart.inv hroot
  | @step ops bc bc' op _ hcorrect hcond hexec ih =>
    rw [List.flatMap_append] at hops htxs
    have hI := ih (fun b hb => hops b (List.mem_append_left _ hb)) (fun t ht => htxs t (List.mem_append_left _ ht))
    refine hI.step hroot hcol hblocks (fun b hb => hops b (List.mem_append_right _ ?_))
      (fun t ht => htxs t (List.mem_append_right _ ?_)) hcorrect hcond hexec
    · rwa [List.flatMap_singleton]
    · rwa [List.flatMap_singleton]

end Invariant

theorem ChainRun.root_sized {C : Block → Blockchain → ChainOp → Prop} {ck : OverflowChecks} {root : Block} {s0 : State}
    {ops : List ChainOp} {bc : Blockchain} (h : ChainRun C ck root s0 ops bc) : root.Sized := by
  induction h with
  | start hstart =>
    cases hstart with
    | new => exact genesisBlock_sized
    | restoreHead hsized _ => exact hsized
  | step _ _ _ _ ih => exact ih

/-- the blocks and the transactions of a run, the root's included -/
def runBlocks (root : Block) (ops : List ChainOp) : List Block := root :: ops.flatMap ChainOp.blocks

def runTransactions (root : Block) (ops : List ChainOp) : List Transaction :=
  root.transactions ++ ops.flatMap ChainOp.transactions

theorem mem_runTransactions {root b : Block} {ops : List ChainOp} (hb : b ∈ runBlocks root ops) {t : Transaction}
    (ht : t ∈ b.transactions) : t ∈ runTransactions root ops := by
  rcases List.mem_cons.1 hb with rfl | hb
  · exact List.mem_append_left _ ht
  · obtain ⟨op, hop, hbop⟩ := List.mem_flatMap.1 hb
    refine List.mem_append_right _ (List.mem_flatMap.2 ⟨op, hop, ?_⟩)
    cases op with
    | addTransaction tx => cases hbop
    | addBlock b' s =>
      rw [List.mem_singleton.1 hbop] at ht
      exact ht

/-- **The mempool never holds an included transaction.** In every run of submissions and imports with correct parent
states, from a new or a restored ledger, whose imports meet `Extends`: no transaction in the mempool has the hash of a
transaction in a block on the path from the root to the head. SHA-256 does not collide on the blocks and transactions of
the run. -/
theorem pool_never_holds_included {ck : OverflowChecks} {root : Block} {s0 : State} {ops : List ChainOp} {bc : Blockchain}
    (hrun : ChainRun Extends ck root s0 ops bc) (hsized : ∀ b ∈ ops.flatMap ChainOp.blocks, b.Sized)
    (hcol : NoCollision {b | b ∈ runBlocks root ops}) (htx : NoTxCollision (runTransactions root ops)) :
    ∀ tx, bc.mempool.holds tx → ∀ c, OnPath bc root bc.headHash c → ∀ t ∈ c.transactions, tx.hash ≠ t.hash := by
  have hsizedAll : ∀ b ∈ runBlocks root ops, b.Sized := by
    intro b hb
    rcases List.mem_cons.1 hb with rfl | hb
    · exact hrun.root_sized
    · exact hsized b hb
  let U : BlockUniverse := ⟨{b | b ∈ runBlocks root ops}, hsizedAll, hcol⟩
  have hI : PoolInv ck U {t | t ∈ runTransactions root ops} root s0 bc :=
    hrun.inv (List.mem_cons_self : root ∈ runBlocks root ops) htx (fun b hb t ht => mem_runTransactions hb ht)
      (fun b hb => List.mem_cons_of_mem _ hb) (fun t ht => List.mem_append_right _ ht)
  intro tx hholds c hc t ht heq
  exact hI.pool tx hholds ⟨c, hc, t, ht, heq.symm⟩

/-! ## Concrete runs -/

section Concrete

variable {ck : OverflowChecks} {bc bc' : Blockchain}

/-- the ledger after a call that returns -/
def ChainOp.execD (ck : OverflowChecks) (bc : Blockchain) (op : ChainOp) : Blockchain := (op.exec ck bc).toOption.getD bc

theorem ChainOp.exec_of_isOk {op : ChainOp} (h : (op.exec ck bc).isOk = true) : op.exec ck bc = .ok (op.execD ck bc) := by
  unfold execD
  cases hexec : op.exec ck bc with
  | error f => rw [hexec] at h; cases h
  | ok r => rfl

/-- a child of the root is imported on the start state -/
theorem ChainOp.correct_on_root {root : Block} {s0 : State} (b : Block) (h : b.previousHash = root.hash) :
    (ChainOp.addBlock b s0).Correct ck root s0 bc := by
  intro _
  rw [h]
  exact ⟨[], .root, rfl⟩

theorem ChainOp.blockAt_exec_addBlock {b x : Block} {s : State} {h : Hash}
    (hexec : (ChainOp.addBlock b s).exec ck bc = .ok bc') (hx : bc.blockAt h = some x) : bc'.blockAt h = some x := by
  simp only [exec] at hexec
  split at hexec
  · cases hexec
  · cases hexec
    exact hx
  · rename_i imported hadd
    cases hexec
    rw [(Blockchain.addBlock_ok hadd).blocks]
    exact Blockchain.blockAfter_of_some b hx

theorem ChainOp.stored_of_exec {b : Block} {s : State} (hexec : (ChainOp.addBlock b s).exec ck bc = .ok bc')
    (hbefore : (bc.blockAt b.hash).isNone = true) (hafter : (bc'.blockAt b.hash).isSome = true) :
    bc'.blockAt b.hash = some b := by
  have hnone := Option.isNone_iff_eq_none.1 hbefore
  simp only [exec] at hexec
  split at hexec
  · cases hexec
  · cases hexec
    rw [hnone] at hafter
    cases hafter
  · rename_i imported hadd
    cases hexec
    rw [(Blockchain.addBlock_ok hadd).blocks, Blockchain.blockAfter, if_pos rfl, hnone]
    rfl

end Concrete

end Pool

section Witness

open Sample

/-- a transfer of nothing, its post-state, and the block that carries it; valid on the empty state -/
def pooledTx : Transaction := tx (key 2) (.transfer (key 4) 0) 0
def pooledState : State := after State.new [pooledTx] 1
def g₁ : Block := child genesis 1 (key 4) [pooledTx] [] pooledState.computeStateRoot

/-- its child on the side branch, and the block of the main chain -/
def g₂ : Block := child g₁ 3 (key 4) [] [] pooledState.computeStateRoot
def k₁ : Block := emptyChild genesis 2 3

theorem g₁_sized : g₁.Sized := ⟨⟨by decide, trivial, trivial⟩, by decide, trivial⟩

/-! ### The transaction is submitted and included in the next head, then its sender submits another one -/

def nextTx : Transaction := tx (key 2) (.stake 0) 1

def keptOps : List ChainOp := [.addTransaction pooledTx, .addBlock g₁ State.new, .addTransaction nextTx]

def submitted : Blockchain := (ChainOp.addTransaction pooledTx).execD .release .new
def included : Blockchain := (ChainOp.addBlock g₁ State.new).execD .release submitted
def kept : Blockchain := (ChainOp.addTransaction nextTx).execD .release included

theorem submitted_exec : (ChainOp.addTransaction pooledTx).exec .release .new = .ok submitted :=
  ChainOp.exec_of_isOk (by decide +kernel)

theorem kept_run : ChainRun Extends .release genesisBlock State.new keptOps kept := by
  have h₁ : ChainRun Extends .release genesisBlock State.new [.addTransaction pooledTx] submitted :=
    .step (.start .new) trivial trivial submitted_exec
  have hhead : g₁.previousHash = submitted.headHash := by decide +kernel
  have hcond : Extends genesisBlock submitted (.addBlock g₁ State.new) := by
    refine ⟨fun _ _ _ => .inl hhead, fun k => ?_⟩
    have hzero : State.new.nonces.getD k 0 = 0 := rfl
    have hlen : (sentBy k g₁.transactions).length ≤ 1 := List.length_filter_le _ _
    rw [hzero, UInt64.toNat_zero]
    omega
  have h₂ := h₁.step (ChainOp.correct_on_root g₁ rfl) hcond (ChainOp.exec_of_isOk (by decide +kernel))
  exact h₂.step trivial trivial (ChainOp.exec_of_isOk (by decide +kernel))

theorem pool_never_holds_included_of_kept :
    (kept.mempool.transactions.entries.map fun e => e.2.hash) = [nextTx.hash] ∧
      ∀ tx, kept.mempool.holds tx → ∀ c, OnPath kept genesisBlock kept.headHash c → ∀ t ∈ c.transactions,
        tx.hash ≠ t.hash := by
  have hsized : ∀ b ∈ keptOps.flatMap ChainOp.blocks, b.Sized := by
    intro b hb
    rw [show keptOps.flatMap ChainOp.blocks = [g₁] from rfl, List.mem_singleton] at hb
    rw [hb]
    exact g₁_sized
  have hcol : ∀ a ∈ runBlocks genesisBlock keptOps, ∀ b ∈ runBlocks genesisBlock keptOps,
      a.hash = b.hash → a.toBytes = b.toBytes := by decide +kernel
  have htx : NoTxCollision (runTransactions genesisBlock keptOps) := by
    unfold NoTxCollision
    decide +kernel
  exact ⟨by decide +kernel, pool_never_holds_included kept_run hsized hcol htx⟩

/-! ### The transaction is submitted, `k₁` becomes head, then the branch with the transaction in its first block wins -/

def onMain : Blockchain := (ChainOp.addBlock k₁ State.new).execD .release submitted
def sideStored : Blockchain := (ChainOp.addBlock g₁ State.new).execD .release onMain
def reorganised : Blockchain := (ChainOp.addBlock g₂ pooledState).execD .release sideStored

/-- the calls return, and both blocks of the branch are stored -/
theorem branch_facts : ((ChainOp.addBlock k₁ State.new).exec .release submitted).isOk = true ∧
    ((ChainOp.addBlock g₁ State.new).exec .release onMain).isOk = true ∧
    ((ChainOp.addBlock g₂ pooledState).exec .release sideStored).isOk = true ∧
    (onMain.blockAt g₁.hash).isNone = true ∧ (sideStored.blockAt g₁.hash).isSome = true ∧
    (sideStored.blockAt g₂.hash).isNone = true ∧ (reorganised.blockAt g₂.hash).isSome = true := by
  decide +kernel

theorem onMain_exec : (ChainOp.addBlock k₁ State.new).exec .release submitted = .ok onMain :=
  ChainOp.exec_of_isOk branch_facts.1

theorem sideStored_exec : (ChainOp.addBlock g₁ State.new).exec .release onMain = .ok sideStored :=
  ChainOp.exec_of_isOk branch_facts.2.1

theorem reorganised_exec : (ChainOp.addBlock g₂ pooledState).exec .release sideStored = .ok reorganised :=
  ChainOp.exec_of_isOk branch_facts.2.2.1

theorem sideStored_g₁ : sideStored.blockAt g₁.hash = some g₁ :=
  ChainOp.stored_of_exec sideStored_exec branch_facts.2.2.2.1 branch_facts.2.2.2.2.1

theorem reorganised_g₂ : reorganised.blockAt g₂.hash = some g₂ :=
  ChainOp.stored_of_exec reorganised_exec branch_facts.2.2.2.2.2.1 branch_facts.2.2.2.2.2.2

/-- the mempool holds the transaction of `g₁`, a block on the path to the head -/
theorem pool_holds_included :
    ∃ ops bc, ChainRun (fun _ _ _ => True) .release genesisBlock State.new ops bc ∧
      ∃ tx c t, bc.mempool.holds tx ∧ OnPath bc genesisBlock bc.headHash c ∧ t ∈ c.transactions ∧ tx.hash = t.hash := by
  have hpool : (reorganised.mempool.transactions.get? pooledTx.order).map Transaction.hash = some pooledTx.hash := by
    decide +kernel
  obtain ⟨tx, htx, hhash⟩ := Option.map_eq_some_iff.1 hpool
  have hhead : reorganised.headHash = g₂.hash := by decide +kernel
  have hg₁ : reorganised.blockAt g₁.hash = some g₁ := ChainOp.blockAt_exec_addBlock reorganised_exec sideStored_g₁
  refine ⟨[.addTransaction pooledTx, .addBlock k₁ State.new, .addBlock g₁ State.new, .addBlock g₂ pooledState],
    reorganised, ?_, tx, g₁, pooledTx, ⟨_, htx⟩, ?_, List.mem_singleton_self _, hhash⟩
  · have h₁ : ChainRun (fun _ _ _ => True) .release genesisBlock State.new [.addTransaction pooledTx] submitted :=
      .step (.start .new) trivial trivial submitted_exec
    have h₂ := h₁.step (ChainOp.correct_on_root k₁ rfl) trivial onMain_exec
    have h₃ := h₂.step (ChainOp.correct_on_root g₁ rfl) trivial sideStored_exec
    have hcorrect : (ChainOp.addBlock g₂ pooledState).Correct .release genesisBlock State.new sideStored :=
      fun _ => ⟨[g₁], Path.child Path.root rfl sideStored_g₁, by decide +kernel⟩
    exact h₃.step hcorrect trivial reorganised_exec
  · rw [hhead]
    exact .above reorganised_g₂ (by decide +kernel) (.here hg₁)

end Witness

end RustProof
