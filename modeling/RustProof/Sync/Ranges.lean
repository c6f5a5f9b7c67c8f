/-
The ranges a ledger serves (`Blockchain::get_blocks`, `Blockchain::earliest_contiguous_height`).

A ledger is run by its own calls from a new or a restored one: no engine is around it, and an import may be given any
parent state. What such a run keeps is `LinkInv`: every block but the root has its parent in the tree, one height below
and at a smaller slot, and the head is the maximum.

Heights are `u64` and wrap in a release build. On the way to the head they do not: a branch that wrapped has passed the
largest height, which then is the head's, and to reach it again takes more blocks than there are slots (`LinkInv.canonical`).
So both walks stop at the root, and `get_blocks` returns the window of the canonical chain (`served_ranges_exact`).
-/
import RustProof.Node.Pool
import RustProof.Sync.Serve

namespace RustProof

section Ranges

variable [Crypto]

/-! ## Runs -/

/-- a new ledger, or one restored to any block with any state -/
inductive LedgerStart : Blockchain → Block → Prop
  | new : LedgerStart .new genesisBlock
  | restoreHead {root : Block} (s0 : State) (sized : root.Sized) : LedgerStart (.restoreHead root s0) root

/-- calls from a start on, imports with any parent state -/
inductive LedgerRun (ck : OverflowChecks) (root : Block) : List ChainOp → Blockchain → Prop
  | start {bc : Blockchain} (start : LedgerStart bc root) : LedgerRun ck root [] bc
  | step {ops : List ChainOp} {bc bc' : Blockchain} {op : ChainOp} (run : LedgerRun ck root ops bc)
      (exec : op.exec ck bc = .ok bc') : LedgerRun ck root (ops ++ [op]) bc'

/-- what is served for the heights of a range: the blocks on the way from the root to the head with these heights -/
structure ServedRange (root head : Block) (bc : Blockchain) (fromHeight toHeight : UInt64) (served : List Block) :
    Prop where
  /-- one block for each height, ascending -/
  heights : served.map Block.heightNat =
    List.range' fromHeight.toNat (min toHeight.toNat head.heightNat + 1 - fromHeight.toNat)
  /-- ancestors of the head or the head, and all of them -/
  mem : ∀ b, b ∈ served ↔ OnPath bc root bc.headHash b ∧ fromHeight ≤ b.height ∧ b.height ≤ toHeight
  linked : served.IsChain fun a b => b.previousHash = a.hash

/-! ## The invariant -/

structure LinkInv (U : BlockUniverse) (root : Block) (bc : Blockchain) : Prop where
  mem : ∀ h b, bc.blockAt h = some b → b ∈ U.blocks
  rootStored : bc.blockAt root.hash = some root
  keys : ∀ h b, bc.blockAt h = some b → b.hash = h
  parents : ∀ h b, bc.blockAt h = some b → h ≠ root.hash →
    ∃ p, bc.blockAt b.previousHash = some p ∧ b.height = p.height + 1 ∧ p.slot < b.slot
  head : ∃ head, bc.blockAt bc.headHash = some head ∧
    ∀ h b, bc.blockAt h = some b → rank h b ≤ rank bc.headHash head

section Invariant

variable {ck : OverflowChecks} {U : BlockUniverse} {root : Block} {bc bc' : Blockchain}

theorem LedgerStart.inv (h : LedgerStart bc root) (hroot : root ∈ U.blocks) : LinkInv U root bc := by
  have hstart : bc.chain = BTreeMap.empty.insert root.hash ⟨root, []⟩ ∧ bc.headHash = root.hash := by
    cases h with
    | new => exact ⟨rfl, rfl⟩
    | restoreHead s0 _ => exact ⟨rfl, rfl⟩
  obtain ⟨hchain, hhead⟩ := hstart
  have hat : ∀ h b, bc.blockAt h = some b ↔ h = root.hash ∧ b = root := fun _ _ => Blockchain.blockAt_single hchain
  refine ⟨fun h b hb => ?_, (hat _ _).2 ⟨rfl, rfl⟩, fun h b hb => ?_, fun h b hb hne => ?_, ?_⟩
  · rw [((hat h b).1 hb).2]
    exact hroot
  · obtain ⟨rfl, rfl⟩ := (hat h b).1 hb
    rfl
  · exact absurd ((hat h b).1 hb).1 hne
  · rw [hhead]
    refine ⟨root, (hat _ _).2 ⟨rfl, rfl⟩, fun h b hb => ?_⟩
    obtain ⟨rfl, rfl⟩ := (hat h b).1 hb
    exact le_rfl

theorem LinkInv.added {b : Block} {s : State} {imported : ImportedBlock} (L : LinkInv U root bc) (hb : b ∈ U.blocks)
    (hadd : Blockchain.Added ck bc b s bc' imported) : LinkInv U root bc' := by
  obtain ⟨p, hp, hacc⟩ := hadd.accepted
  have hcases : ∀ h x, bc'.blockAt h = some x → bc.blockAt h = some x ∨ h = b.hash ∧ x = b := by
    intro h x hx
    rw [hadd.blocks] at hx
    exact (Blockchain.blockAfter_cases hx).imp_right And.right
  have hkeep : ∀ h x, bc.blockAt h = some x → bc'.blockAt h = some x := by
    intro h x hx
    rw [hadd.blocks]
    exact Blockchain.blockAfter_of_some b hx
  refine ⟨fun h x hx => ?_, hkeep _ _ L.rootStored, fun h x hx => ?_, fun h x hx hne => ?_, ?_⟩
  · rcases hcases h x hx with hold | ⟨-, rfl⟩
    · exact L.mem h x hold
    · exact hb
  · rcases hcases h x hx with hold | ⟨rfl, rfl⟩
    · exact L.keys h x hold
    · rfl
  · rcases hcases h x hx with hold | ⟨rfl, rfl⟩
    · obtain ⟨q, hq, hlink⟩ := L.parents h x hold hne
      exact ⟨q, hkeep _ _ hq, hlink⟩
    · exact ⟨p, hkeep _ _ hp, hacc.height_eq, hacc.slot⟩
  · refine hadd.maximum (fun x hx => ?_) L.head
    exact U.unsigned_eq (L.mem _ _ hx) hb (L.keys _ _ hx)

/-- one call keeps the invariant -/
theorem LinkInv.step {op : ChainOp} (L : LinkInv U root bc) (hop : ∀ b ∈ op.blocks, b ∈ U.blocks)
    (hexec : op.exec ck bc = .ok bc') : LinkInv U root bc' := by
  cases op with
  | addTransaction tx =>
    simp only [ChainOp.exec] at hexec
    split at hexec
    · rename_i hadd
      cases hexec
      obtain ⟨-, hchain, hhead, -⟩ := addTransaction_inv hadd
      have hat : ∀ h, bc'.blockAt h = bc.blockAt h := fun h => by
        rw [Blockchain.blockAt, hchain]
        rfl
      obtain ⟨hmem, hrootStored, hkeys, hparents, hmax⟩ := L
      refine ⟨?_, ?_, ?_, ?_, ?_⟩
      · simpa only [hat] using hmem
      · simpa only [hat] using hrootStored
      · simpa only [hat] using hkeys
      · simpa only [hat] using hparents
      · simpa only [hat, hhead] using hmax
    · cases hexec
      exact L
  | addBlock b s =>
    simp only [ChainOp.exec] at hexec
    split at hexec
    · cases hexec
    · cases hexec
      exact L
    · rename_i imported hadd
      cases hexec
      exact L.added (hop b (List.mem_singleton_self b)) (Blockchain.addBlock_ok hadd)

theorem LedgerRun.inv {ops : List ChainOp} (hrun : LedgerRun ck root ops bc) (hroot : root ∈ U.blocks)
    (hops : ∀ b ∈ ops.flatMap ChainOp.blocks, b ∈ U.blocks) : LinkInv U root bc := by
  induction hrun with
  | start hstart => exact hstart.inv hroot
  | step _ hexec ih =>
    rw [List.flatMap_append, List.flatMap_singleton] at hops
    exact (ih fun b hb => hops b (List.mem_append_left _ hb)).step (fun b hb => hops b (List.mem_append_right _ hb)) hexec

/-! ## Paths of the tree -/

/-- a path on which the root is not met again -/
def Simple (root : Block) (l : List Block) : Prop := ∀ b ∈ l, b.hash ≠ root.hash

/-- from every block the parents lead to the root, since slots decrease -/
theorem LinkInv.path (L : LinkInv U root bc) {h : Hash} {b : Block} (hb : bc.blockAt h = some b) :
    ∃ l, Path bc root l h ∧ Simple root l := by
  induction hn : b.slot.toNat using Nat.strong_induction_on generalizing h b with
  | _ n ih =>
    by_cases hroot : h = root.hash
    · rw [hroot]
      exact ⟨[], .root, fun b hb => absurd hb List.not_mem_nil⟩
    · obtain ⟨p, hp, -, hslot⟩ := L.parents h b hb hroot
      have hlt : p.slot.toNat < n := by
        rw [← hn]
        exact UInt64.lt_iff_toNat_lt.1 hslot
      obtain ⟨l, hpath, hsimple⟩ := ih _ hlt hp rfl
      have hkey := L.keys h b hb
      refine ⟨l ++ [b], ?_, fun c hc => ?_⟩
      · rw [← hkey]
        exact .child hpath rfl (by rw [hkey]; exact hb)
      · rcases List.mem_append.1 hc with hc | hc
        · exact hsimple c hc
        · rw [List.mem_singleton.1 hc, hkey]
          exact hroot

theorem Simple.append {l l' : List Block} (h : Simple root (l ++ l')) : Simple root l := fun b hb =>
  h b (List.mem_append_left _ hb)

/-- slots count the blocks of a path, and heights do so modulo 2 ^ 64 -/
theorem LinkInv.count (L : LinkInv U root bc) {l : List Block} {h : Hash} (hp : Path bc root l h) (hl : Simple root l) :
    root.slot.toNat + l.length ≤ (l.getLastD root).slot.toNat ∧
      (l.getLastD root).heightNat = (root.heightNat + l.length) % 2 ^ 64 := by
  induction hp with
  | root => exact ⟨le_rfl, (Nat.mod_eq_of_lt root.height.toNat_lt).symm⟩
  | @child l h b hparent hlink hstored ih =>
    obtain ⟨hslots, hheights⟩ := ih hl.append
    obtain ⟨p, hp, hheight, hslot⟩ := L.parents _ _ hstored (hl b (by simp))
    rw [hlink, hparent.inTree L.rootStored] at hp
    cases hp
    have hone : (1 : UInt64).toNat = 1 := rfl
    have hnext : b.heightNat = ((l.getLastD root).heightNat + 1) % 2 ^ 64 := by
      rw [Block.heightNat, hheight, UInt64.toNat_add, hone]
      rfl
    rw [UInt64.lt_iff_toNat_lt] at hslot
    simp only [List.getLastD_concat, List.length_append, List.length_singleton]
    rw [hnext, hheights]
    omega

/-- as long as the heights of a path fit, they are consecutive -/
theorem LinkInv.consecutive (L : LinkInv U root bc) {l : List Block} {h : Hash} (hp : Path bc root l h)
    (hl : Simple root l) (hfit : root.heightNat + l.length < 2 ^ 64) :
    Consecutive Block.heightNat root.heightNat (root :: l) := by
  induction hp with
  | root => exact consecutive_cons.2 ⟨rfl, .nil⟩
  | @child l h b hparent hlink hstored ih =>
    have hlast := (L.count (.child hparent hlink hstored) hl).2
    rw [List.length_append, List.length_singleton] at hfit
    rw [List.getLastD_concat, List.length_append, List.length_singleton, Nat.mod_eq_of_lt (by omega)] at hlast
    have hinit := ih hl.append (by omega)
    rw [← List.cons_append]
    refine hinit.snoc ?_
    rw [hlast, List.length_cons]

theorem Path.piece {l : List Block} {h : Hash} (hp : Path bc root l h) {n : ℕ} (hn : n ≤ l.length) :
    ∃ h', Path bc root (l.take n) h' := by
  induction hp with
  | root =>
    rw [List.take_nil]
    exact ⟨_, .root⟩
  | @child l h b hparent hlink hstored ih =>
    by_cases hle : n ≤ l.length
    · rw [List.take_append_of_le_length hle]
      exact ih hle
    · rw [List.length_append, List.length_singleton] at hn
      rw [List.take_of_length_le (by simp; omega)]
      exact ⟨_, .child hparent hlink hstored⟩

/-- the way back to the root, block by block, is the path -/
theorem LinkInv.onPath (L : LinkInv U root bc) {l : List Block} {h : Hash} (hp : Path bc root l h)
    (hl : Simple root l) (c : Block) : OnPath bc root h c ↔ c ∈ root :: l := by
  induction hp with
  | root =>
    rw [List.mem_singleton]
    constructor
    · intro hc
      cases hc with
      | here hstored => exact Option.some.inj (hstored.symm.trans L.rootStored)
      | above _ hne _ => exact absurd rfl hne
    · rintro rfl
      exact .here L.rootStored
  | @child l h b hparent hlink hstored ih =>
    rw [← List.cons_append, List.mem_append, List.mem_singleton, ← ih hl.append]
    constructor
    · intro hc
      cases hc with
      | here hstored' => exact .inr (Option.some.inj (hstored'.symm.trans hstored))
      | above hstored' _ hrest =>
        rw [Option.some.inj (hstored'.symm.trans hstored), hlink] at hrest
        exact .inl hrest
    · rintro (hc | rfl)
      · exact .above hstored (hl b (by simp)) (by rwa [hlink])
      · exact .here hstored

/-- a path with consecutive heights visits no block twice, so it is not longer than the tree -/
theorem Path.length_lt {l : List Block} {h : Hash} (hp : Path bc root l h) (hroot : bc.blockAt root.hash = some root)
    (hcons : Consecutive Block.heightNat root.heightNat (root :: l)) : l.length < bc.chain.len + 1 := by
  have hstored : ∀ b ∈ root :: l, bc.blockAt b.hash = some b := by
    intro b hb
    rcases List.mem_cons.1 hb with rfl | hb
    · exact hroot
    · exact hp.stored b hb
  have hnodup : ((root :: l).map Block.hash).Nodup := by
    have hheights : ((root :: l).map Block.heightNat).Nodup := by
      rw [hcons]
      exact List.nodup_range'
    refine List.Nodup.map_on (fun a ha b hb heq => ?_) (List.Nodup.of_map _ hheights)
    have ha := hstored a ha
    rw [heq, hstored b hb] at ha
    exact (Option.some.inj ha).symm
  have hsub : ((root :: l).map Block.hash).toFinset ⊆ bc.chain.keys := by
    intro x hx
    obtain ⟨b, hb, rfl⟩ := List.mem_map.1 (List.mem_toFinset.1 hx)
    obtain ⟨node, hnode, -⟩ := Option.map_eq_some_iff.1 (hstored b hb)
    exact BTreeMap.mem_keys.2 ⟨node, hnode⟩
  have hcard := Finset.card_le_card hsub
  rw [List.toFinset_card_of_nodup hnodup, BTreeMap.card_keys, List.length_map, List.length_cons] at hcard
  omega

/-- **The canonical chain does not wrap.** The path from the root to the head has consecutive heights. -/
theorem LinkInv.canonical (L : LinkInv U root bc) : ∃ l head, Path bc root l bc.headHash ∧ Simple root l ∧
    Consecutive Block.heightNat root.heightNat (root :: l) ∧ bc.blockAt bc.headHash = some head ∧
    head.heightNat = root.heightNat + l.length := by
  obtain ⟨head, hhead, hmax⟩ := L.head
  obtain ⟨l, hpath, hsimple⟩ := L.path hhead
  have hlast : l.getLastD root = head := by
    have hin := hpath.inTree L.rootStored
    rw [hhead] at hin
    exact (Option.some.inj hin).symm
  obtain ⟨hslots, hheight⟩ := L.count hpath hsimple
  rw [hlast] at hslots hheight
  have hfit : root.heightNat + l.length < 2 ^ 64 := by
    by_contra hover
    have hrootHeight : root.heightNat < 2 ^ 64 := root.height.toNat_lt
    have hheadSlot : head.slot.toNat < 2 ^ 64 := head.slot.toNat_lt
    -- the block of the path with the largest height is stored, so the head has that height too
    have hn : 2 ^ 64 - 1 - root.heightNat ≤ l.length := by omega
    obtain ⟨h', hpiece⟩ := hpath.piece hn
    have hpieceSimple : Simple root (l.take (2 ^ 64 - 1 - root.heightNat)) := fun b hb =>
      hsimple b (List.mem_of_mem_take hb)
    have htop := (L.count hpiece hpieceSimple).2
    have hle := heightNat_le_of_rank_le (hmax _ _ (hpiece.inTree L.rootStored))
    rw [List.length_take, Nat.min_eq_left hn] at htop
    rw [htop, hheight] at hle
    omega
  refine ⟨l, head, hpath, hsimple, L.consecutive hpath hsimple hfit, hhead, ?_⟩
  rw [hheight, Nat.mod_eq_of_lt hfit]

/-! ## The two walks -/

/-- the first walk stops at a root that is at height 0 or whose parent is not stored -/
theorem LinkInv.earliest (L : LinkInv U root bc) (hroot : root.height ≠ 0 → bc.blockAt root.previousHash = none)
    {l : List Block} {h : Hash} (hp : Path bc root l h) (hpos : ∀ b ∈ l, root.heightNat < b.heightNat) {fuel : ℕ}
    (hfuel : l.length < fuel) (x : UInt64) : bc.earliestLoop fuel h x = .ok root.height := by
  induction hp generalizing fuel x with
  | root =>
    obtain ⟨fuel, rfl⟩ := Nat.exists_eq_succ_of_ne_zero (Nat.ne_of_gt hfuel)
    obtain ⟨node, hnode, hblock⟩ := Option.map_eq_some_iff.1 L.rootStored
    have hstop : root.height = 0 ∨ bc.chain.contains root.previousHash = false := by
      refine or_iff_not_imp_left.2 fun hzero => ?_
      have hnone : bc.chain.get? root.previousHash = none := Option.map_eq_none_iff.1 (hroot hzero)
      rw [BTreeMap.contains, hnone]
      rfl
    rw [Blockchain.earliestLoop, hnode]
    simp only [hblock, if_pos hstop]
  | @child l h b hparent hlink hstored ih =>
    obtain ⟨fuel, rfl⟩ := Nat.exists_eq_succ_of_ne_zero (Nat.ne_of_gt (Nat.zero_lt_of_lt hfuel))
    have hbpos := hpos b (by simp)
    have hzero : b.height ≠ 0 := by
      intro h0
      rw [Block.heightNat, Block.heightNat, h0] at hbpos
      exact absurd hbpos (Nat.not_lt_zero _)
    rw [List.length_append, List.length_singleton] at hfuel
    rw [earliestLoop_child hstored hzero ⟨_, by rw [hlink]; exact hparent.inTree L.rootStored⟩, hlink]
    exact ih (fun c hc => hpos c (List.mem_append_left _ hc)) (by omega) _

theorem LinkInv.served (L : LinkInv U root bc) (hroot : root.height ≠ 0 → bc.blockAt root.previousHash = none) :
    ∃ head, bc.getLatestBlock = .ok head ∧ bc.earliestContiguousHeight = .ok root.height ∧
      ∀ fromHeight toHeight,
        (fromHeight > toHeight ∨ fromHeight < root.height ∨ fromHeight > head.height →
          bc.getBlocks fromHeight toHeight = .ok []) ∧
        (fromHeight ≤ toHeight → root.height ≤ fromHeight → fromHeight ≤ head.height →
          ∃ served, bc.getBlocks fromHeight toHeight = .ok served ∧
            ServedRange root head bc fromHeight toHeight served) := by
  obtain ⟨l, head, hpath, hsimple, hcons, hhead, hheight⟩ := L.canonical
  have hfuel := hpath.length_lt L.rootStored hcons
  have hpos : ∀ b ∈ l, root.heightNat < b.heightNat := fun b hb => ((consecutive_cons.1 hcons).2.mem hb).1
  have hlatest := Blockchain.getLatestBlock_ok_iff.2 hhead
  have hearliest : bc.earliestContiguousHeight = .ok root.height := by
    unfold Blockchain.earliestContiguousHeight
    rw [hlatest]
    exact L.earliest hroot hpath hpos hfuel _
  refine ⟨head, hlatest, hearliest, fun fromHeight toHeight => ⟨fun hout => ?_, fun hto hearly hlate => ?_⟩⟩
  · exact getBlocks_outside hhead hearliest hout
  have hblocks := getBlocks_path L.rootStored hpath hcons hfuel hhead hearliest hto hearly hlate
  have hstart : root.heightNat ≤ fromHeight.toNat := UInt64.le_iff_toNat_le.1 hearly
  have hend : fromHeight.toNat ≤ head.heightNat := UInt64.le_iff_toNat_le.1 hlate
  refine ⟨_, hblocks, ?_, fun b => ?_, ?_⟩
  · rw [hcons.filter hstart]
    have hpiece : fromHeight.toNat - root.heightNat ≤ (root :: l).length := by
      rw [List.length_cons]
      omega
    have hdrop := (hcons.drop hpiece).take (toHeight.toNat + 1 - fromHeight.toNat)
    unfold Consecutive at hdrop
    rw [hdrop, List.length_take, List.length_drop, List.length_cons, Nat.add_sub_cancel' hstart]
    congr 1
    omega
  · rw [List.mem_filter, decide_eq_true_eq, L.onPath hpath hsimple, UInt64.le_iff_toNat_le, UInt64.le_iff_toNat_le]
    rfl
  · rw [hcons.filter hstart]
    exact ((hpath.linked.1.isChain).drop _).take _

end Invariant

theorem LedgerRun.root_sized {ck : OverflowChecks} {root : Block} {ops : List ChainOp} {bc : Blockchain}
    (h : LedgerRun ck root ops bc) : root.Sized := by
  induction h with
  | start hstart =>
    cases hstart with
    | new => exact genesisBlock_sized
    | restoreHead _ hsized => exact hsized
  | step _ _ ih => exact ih

/-- **Served ranges are exact.** In every ledger that calls reach from a new or a restored one, with any parent states,
the earliest height is the root's, and `get_blocks` returns exactly the blocks of the canonical chain with the heights of
the range, or nothing if the range is empty, begins below the root or above the head. SHA-256 does not collide on the
blocks of the run, and a root above height 0 does not name a stored block as its parent. -/
theorem served_ranges_exact {ck : OverflowChecks} {root : Block} {ops : List ChainOp} {bc : Blockchain}
    (hrun : LedgerRun ck root ops bc) (hsized : ∀ b ∈ ops.flatMap ChainOp.blocks, b.Sized)
    (hcol : NoCollision {b | b ∈ runBlocks root ops})
    (hroot : root.height ≠ 0 → ∀ h b, bc.blockAt h = some b → b.hash ≠ root.previousHash) :
    ∃ head, bc.getLatestBlock = .ok head ∧ bc.earliestContiguousHeight = .ok root.height ∧
      ∀ fromHeight toHeight,
        (fromHeight > toHeight ∨ fromHeight < root.height ∨ fromHeight > head.height →
          bc.getBlocks fromHeight toHeight = .ok []) ∧
        (fromHeight ≤ toHeight → root.height ≤ fromHeight → fromHeight ≤ head.height →
          ∃ served, bc.getBlocks fromHeight toHeight = .ok served ∧
            ServedRange root head bc fromHeight toHeight served) := by
  have hsizedAll : ∀ b ∈ runBlocks root ops, b.Sized := by
    intro b hb
    rcases List.mem_cons.1 hb with rfl | hb
    · exact hrun.root_sized
    · exact hsized b hb
  let U : BlockUniverse := ⟨{b | b ∈ runBlocks root ops}, hsizedAll, hcol⟩
  have L : LinkInv U root bc := hrun.inv List.mem_cons_self fun b hb => List.mem_cons_of_mem _ hb
  refine L.served fun hpos => ?_
  by_contra hstored
  obtain ⟨b, hb⟩ := Option.ne_none_iff_exists'.1 hstored
  exact hroot hpos _ _ hb (L.keys _ _ hb)

end Ranges

section Witness

open Sample

/-- a ledger restored to `m₁`, with a branch `n₂` beside the chain `m₂, m₃` -/
def branchOps : List ChainOp := [.addBlock m₂ State.new, .addBlock n₂ State.new, .addBlock m₃ State.new]

def restoredAt₁ : Blockchain := .restoreHead m₁ State.new
def withM₂ : Blockchain := (ChainOp.addBlock m₂ State.new).execD .release restoredAt₁
def withN₂ : Blockchain := (ChainOp.addBlock n₂ State.new).execD .release withM₂
def branched : Blockchain := (ChainOp.addBlock m₃ State.new).execD .release withN₂

theorem branched_run : LedgerRun .release m₁ branchOps branched := by
  have h₁ : LedgerRun .release m₁ [] restoredAt₁ := .start (.restoreHead _ (emptyChild_sized _ _ _))
  have h₂ : LedgerRun .release m₁ [.addBlock m₂ State.new] withM₂ := h₁.step (ChainOp.exec_of_isOk (by decide +kernel))
  have h₃ : LedgerRun .release m₁ [.addBlock m₂ State.new, .addBlock n₂ State.new] withN₂ :=
    h₂.step (ChainOp.exec_of_isOk (by decide +kernel))
  exact h₃.step (ChainOp.exec_of_isOk (by decide +kernel))

/-- asked for the heights 1 to 2, it serves `m₁` and `m₂`; `n₂` is stored and not served -/
theorem served_ranges_exact_of_branched :
    ∃ served, branched.getBlocks 1 2 = .ok served ∧ served.map Block.hash = [m₁.hash, m₂.hash] ∧
      branched.chain.contains n₂.hash = true ∧ ∀ b ∈ served, OnPath branched m₁ branched.headHash b := by
  have hsized : ∀ b ∈ branchOps.flatMap ChainOp.blocks, b.Sized := by
    intro b hb
    have hcases : b = m₂ ∨ b = n₂ ∨ b = m₃ := by simpa [branchOps, ChainOp.blocks] using hb
    rcases hcases with rfl | rfl | rfl <;> exact emptyChild_sized _ _ _
  have hcol : ∀ a ∈ runBlocks m₁ branchOps, ∀ b ∈ runBlocks m₁ branchOps, a.hash = b.hash → a.toBytes = b.toBytes := by
    decide +kernel
  have hforeign : ∀ e ∈ branched.chain.entries, e.2.block.hash ≠ m₁.previousHash := by decide +kernel
  have hroot : ∀ h b, branched.blockAt h = some b → b.hash ≠ m₁.previousHash := by
    intro h b hb
    obtain ⟨node, hnode, rfl⟩ := Option.map_eq_some_iff.1 hb
    exact hforeign _ ((BTreeMap.mem_entries_iff _ _ _).2 hnode)
  obtain ⟨head, hhead, -, hserve⟩ := served_ranges_exact branched_run hsized hcol fun _ => hroot
  have hlate : (1 : UInt64) ≤ head.height := by
    have hheight : (branched.getLatestBlock.map Block.height).toOption = some 3 := by decide +kernel
    rw [hhead] at hheight
    rw [Option.some.inj hheight]
    decide
  obtain ⟨served, hserved, hrange⟩ := (hserve 1 2).2 (by decide) (by decide) hlate
  have hhashes : ((branched.getBlocks 1 2).map (List.map Block.hash)).toOption = some [m₁.hash, m₂.hash] := by
    decide +kernel
  rw [hserved] at hhashes
  exact ⟨served, hserved, Option.some.inj hhashes, by decide +kernel, fun b hb => ((hrange.mem b).1 hb).1⟩

end Witness

end RustProof
