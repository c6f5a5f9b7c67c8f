/-
What a server answers to a request for heights.

The canonical chain of an engine is the path from its root to its head. Its heights are consecutive as long as the head's
is not the largest one, so that the walks of `earliest_contiguous_height` and `get_blocks` along it are exact: the first
stops at the root, the second returns the blocks of the window. `Canonical.serve` is the whole answer to a `SyncRequest`
that begins at the root or above, as a window on the list of blocks.
-/
import RustProof.Lib.Window
import RustProof.Node.Ledger

namespace RustProof

section Serve

variable [Crypto]

def Block.heightNat (b : Block) : ℕ := b.height.toNat

/-! ## The canonical chain -/

/-- the path from the root to the head, with the head's state -/
structure Canonical (ck : OverflowChecks) (root : Block) (s0 : State) (bc : Blockchain) (blocks : List Block) : Prop where
  path : Path bc root blocks bc.headHash
  replayed : replay ck root s0 blocks = .ok (.ok bc.state)

theorem Path.linked {bc : Blockchain} {root : Block} {l : List Block} {h : Hash} (hp : Path bc root l h) :
    Linked Block.previousHash Block.hash root.hash l ∧ tip Block.hash root.hash l = h := by
  induction hp with
  | root => exact ⟨trivial, rfl⟩
  | @child l h b _ hlink _ ih =>
    obtain ⟨hl, ht⟩ := ih
    rw [linked_append, tip_append]
    exact ⟨⟨hl, by rw [ht]; exact ⟨hlink, trivial⟩⟩, rfl⟩

theorem Path.stored {bc : Blockchain} {root : Block} {l : List Block} {h : Hash} (hp : Path bc root l h) :
    ∀ b ∈ l, bc.blockAt b.hash = some b := by
  induction hp with
  | root => exact fun b hb => nomatch hb
  | child _ _ hs ih =>
    intro b hb
    rcases List.mem_append.1 hb with hb | hb
    · exact ih b hb
    · rw [List.mem_singleton.1 hb]
      exact hs

/-- a path ends at a stored block -/
theorem Path.inTree {bc : Blockchain} {root : Block} {l : List Block} {h : Hash} (hp : Path bc root l h)
    (hroot : bc.blockAt root.hash = some root) : bc.blockAt h = some (l.getLastD root) := by
  cases hp with
  | root => exact hroot
  | child _ _ hs => simpa using hs

/-- without the largest height there is no overflow, and heights are consecutive -/
theorem replay_consecutive {ck : OverflowChecks} {p : Block} {s s' : State} {bs : List Block}
    (h : replay ck p s bs = .ok (.ok s')) (hmax : ∀ b ∈ p :: bs, b.heightNat < 2 ^ 64 - 1) :
    Consecutive Block.heightNat (p.heightNat + 1) bs := by
  induction bs generalizing p s with
  | nil => exact .nil
  | cons b bs ih =>
    obtain ⟨s1, hacc, hrest⟩ := replay_cons_ok_iff.1 h
    have hp := hmax p List.mem_cons_self
    have hb : b.heightNat = p.heightNat + 1 := by
      have hone : (1 : UInt64).toNat = 1 := rfl
      unfold Block.heightNat at hp ⊢
      rw [hacc.height_eq, toNat_add_of_lt (by omega), hone]
    refine consecutive_cons.2 ⟨hb, ?_⟩
    rw [← hb]
    exact ih hrest fun x hx => hmax x (List.mem_cons_of_mem _ hx)

theorem heightNat_le_of_rank_le {h h' : Hash} {b c : Block} (hle : rank h b ≤ rank h' c) : b.heightNat ≤ c.heightNat := by
  unfold rank at hle
  rcases Prod.Lex.toLex_le_toLex.1 hle with hlt | ⟨heq, -⟩
  · exact (UInt64.lt_iff_toNat_lt.1 hlt).le
  · exact (congrArg UInt64.toNat heq).le

section Walk

variable {ck : OverflowChecks} {U : BlockUniverse} {root : Block} {s0 : State} {bc : Blockchain}

/-- the head's height bounds all -/
theorem TreeInv.height_le (T : TreeInv ck U root s0 bc) {head b : Block} {h : Hash}
    (hhead : bc.blockAt bc.headHash = some head) (hb : bc.blockAt h = some b) : b.heightNat ≤ head.heightNat := by
  obtain ⟨hd, hhd, hmax⟩ := T.head
  rw [hhead] at hhd
  cases hhd
  exact heightNat_le_of_rank_le (hmax h b hb)

/-- a stored block is at the end of a replayed path, so it is not below the root -/
theorem TreeInv.root_le (hroot : root ∈ U.blocks) (T : TreeInv ck U root s0 bc) {head b : Block} {h : Hash}
    (hhead : bc.blockAt bc.headHash = some head) (hlt : head.heightNat < 2 ^ 64 - 1) (hb : bc.blockAt h = some b) :
    root.heightNat ≤ b.heightNat := by
  obtain ⟨s, hd⟩ := T.derived h b hb
  obtain ⟨path, hpath, hreplay, hlast⟩ := T.path hroot hd (c := b) (by rw [T.keys h b hb]; exact hb)
  have hcons := replay_consecutive hreplay (by
    intro x hx
    rcases List.mem_cons.1 hx with rfl | hx
    · exact (T.height_le hhead T.rootStored).trans_lt hlt
    · exact (T.height_le hhead (hpath.stored x hx)).trans_lt hlt)
  rcases path.eq_nil_or_concat with rfl | ⟨init, x, rfl⟩
  · exact (congrArg Block.heightNat hlast).le
  · rw [List.concat_eq_append, List.getLastD_concat] at hlast
    have hx := (hcons.mem (x := x) (by simp)).1
    rw [hlast] at hx
    omega

/-- in a tree where every block has its parent and none is at height 0, the walk does not end -/
theorem earliestLoop_diverges (hall : ∀ h b, bc.blockAt h = some b → b.height ≠ 0 ∧ bc.chain.contains b.previousHash = true)
    (fuel : ℕ) (h : Hash) (x : UInt64) (hh : ∃ b, bc.blockAt h = some b) (a : UInt64) :
    bc.earliestLoop fuel h x ≠ .ok a := by
  induction fuel generalizing h x with
  | zero => exact fun he => nomatch he
  | succ fuel ih =>
    obtain ⟨b, hb⟩ := hh
    obtain ⟨hzero, hparent⟩ := hall h b hb
    obtain ⟨node, hnode, rfl⟩ : ∃ node, bc.chain.get? h = some node ∧ node.block = b := by
      unfold Blockchain.blockAt at hb
      exact Option.map_eq_some_iff.1 hb
    have hnext : ∃ c, bc.blockAt node.block.previousHash = some c := by
      obtain ⟨c, hc⟩ := (BTreeMap.contains_iff _ _).1 hparent
      exact ⟨c.block, by rw [Blockchain.blockAt, hc]; rfl⟩
    rw [Blockchain.earliestLoop, hnode]
    simp only
    rw [if_neg (by simp [hzero, hparent])]
    exact ih _ _ hnext

/-- from a block with a parent in the tree the walk goes on to the parent -/
theorem earliestLoop_child {b : Block} {h : Hash} (hstored : bc.blockAt h = some b) (hzero : b.height ≠ 0)
    (hparent : ∃ p, bc.blockAt b.previousHash = some p) (fuel : ℕ) (x : UInt64) :
    bc.earliestLoop (fuel + 1) h x = bc.earliestLoop fuel b.previousHash b.height := by
  obtain ⟨node, hnode, rfl⟩ := Option.map_eq_some_iff.1 hstored
  obtain ⟨p, hp⟩ := hparent
  obtain ⟨pnode, hpnode, -⟩ := Option.map_eq_some_iff.1 hp
  have hin : bc.chain.contains node.block.previousHash = true := (BTreeMap.contains_iff _ _).2 ⟨pnode, hpnode⟩
  rw [Blockchain.earliestLoop, hnode]
  simp [hzero, hin]

/-- along a path the walk goes down to the root, and no further if it ends -/
theorem earliestLoop_path (hroot : root ∈ U.blocks) (T : TreeInv ck U root s0 bc) {head : Block}
    (hhead : bc.blockAt bc.headHash = some head) (hlt : head.heightNat < 2 ^ 64 - 1) {l : List Block} {h : Hash}
    (hp : Path bc root l h) (hpos : ∀ b ∈ l, root.heightNat < b.heightNat) {fuel : ℕ} {x a : UInt64}
    (he : bc.earliestLoop fuel h x = .ok a) : l.length < fuel ∧ a = root.height := by
  induction hp generalizing fuel x with
  | root =>
    cases fuel with
    | zero => cases he
    | succ fuel =>
      refine ⟨Nat.succ_pos _, ?_⟩
      by_contra hne
      -- otherwise the root has height above 0 and its parent in the tree
      have hnode : ∃ node, bc.chain.get? root.hash = some node ∧ node.block = root :=
        Option.map_eq_some_iff.1 T.rootStored
      obtain ⟨node, hnode, hblock⟩ := hnode
      rw [Blockchain.earliestLoop, hnode] at he
      simp only [hblock] at he
      split_ifs at he with hstop
      · exact hne (Except.ok.inj he).symm
      · obtain ⟨hzero, hparent⟩ := not_or.1 hstop
        have hpos : 0 < root.heightNat := Nat.pos_of_ne_zero fun h0 => hzero (UInt64.toNat_inj.1 h0)
        have hin : ∃ c, bc.blockAt root.previousHash = some c := by
          obtain ⟨c, hc⟩ := (BTreeMap.contains_iff _ _).1 (by simpa using hparent)
          exact ⟨c.block, by rw [Blockchain.blockAt, hc]; rfl⟩
        refine earliestLoop_diverges (fun y b hb => ⟨fun h0 => ?_, ?_⟩) fuel _ _ hin a he
        · have hle := T.root_le hroot hhead hlt hb
          rw [Block.heightNat, Block.heightNat, h0] at hle
          exact absurd hle (Nat.not_le.2 hpos)
        · by_cases hy : y = root.hash
          · subst hy
            rw [T.rootStored] at hb
            cases hb
            simpa using hparent
          · obtain ⟨p, hpp⟩ := T.parents y b hb hy
            obtain ⟨node', hnode', -⟩ := Option.map_eq_some_iff.1 hpp
            exact (BTreeMap.contains_iff _ _).2 ⟨node', hnode'⟩
  | @child l h b hparent hlink hstored ih =>
    cases fuel with
    | zero => cases he
    | succ fuel =>
      have hbpos := hpos b (by simp)
      have hzero : b.height ≠ 0 := fun h0 => by
        rw [Block.heightNat, Block.heightNat, h0] at hbpos
        exact absurd hbpos (Nat.not_lt_zero _)
      rw [earliestLoop_child hstored hzero ⟨_, by rw [hlink]; exact hparent.inTree T.rootStored⟩, hlink] at he
      obtain ⟨hlen, ha⟩ := ih (fun c hc => hpos c (List.mem_append_left _ hc)) he
      exact ⟨by rw [List.length_append, List.length_singleton]; omega, ha⟩

/-- with fuel for the path, `get_blocks` collects its window on the way to the root -/
theorem collectLoop_path (hrootStored : bc.blockAt root.hash = some root) {l : List Block} {h : Hash}
    (hp : Path bc root l h) (hpos : ∀ b ∈ l, root.heightNat < b.heightNat) (fromHeight toHeight : UInt64) {fuel : ℕ} (hfuel : l.length < fuel) :
    bc.collectLoop fromHeight toHeight root.height fuel h =
      .ok (((root :: l).filter fun b =>
        decide (fromHeight.toNat ≤ b.heightNat ∧ b.heightNat ≤ toHeight.toNat)).reverse) := by
  have hwindow : ∀ b : Block, (b.height ≥ fromHeight ∧ b.height ≤ toHeight) ↔
      (fromHeight.toNat ≤ b.heightNat ∧ b.heightNat ≤ toHeight.toNat) :=
    fun b => and_congr UInt64.le_iff_toNat_le UInt64.le_iff_toNat_le
  induction hp generalizing fuel with
  | root =>
    cases fuel with
    | zero => exact absurd hfuel (Nat.not_lt_zero _)
    | succ fuel =>
      obtain ⟨node, hnode, hblock⟩ := Option.map_eq_some_iff.1 hrootStored
      rw [Blockchain.collectLoop, hnode]
      simp only [hblock, true_or, if_true, hwindow]
      split_ifs with hin <;> simp [hin]
  | @child l h b _ hlink hstored ih =>
    cases fuel with
    | zero => exact absurd hfuel (Nat.not_lt_zero _)
    | succ fuel =>
      obtain ⟨node, hnode, rfl⟩ := Option.map_eq_some_iff.1 hstored
      have hbpos := hpos node.block (by simp)
      have hgo : ¬ (node.block.height = root.height ∨ node.block.height = 0) := by
        rintro (heq | h0)
        · rw [Block.heightNat, Block.heightNat, heq] at hbpos
          exact lt_irrefl _ hbpos
        · rw [Block.heightNat, Block.heightNat, h0] at hbpos
          exact absurd hbpos (Nat.not_lt_zero _)
      have hlen : l.length < fuel := by
        rw [List.length_append, List.length_singleton] at hfuel
        omega
      rw [Blockchain.collectLoop, hnode]
      simp only [hwindow]
      rw [if_neg hgo, hlink, ih (fun c hc => hpos c (List.mem_append_left _ hc)) hlen, ← List.cons_append,
        List.filter_append, List.reverse_append]
      split_ifs with hin <;> simp [hin]

/-- the blocks of a window that lies between the root and the head, along a path with consecutive heights -/
theorem getBlocks_path (hrootStored : bc.blockAt root.hash = some root) {l : List Block}
    (hp : Path bc root l bc.headHash) (hcons : Consecutive Block.heightNat root.heightNat (root :: l))
    (hfuel : l.length < bc.chain.len + 1) {head : Block} (hhead : bc.blockAt bc.headHash = some head)
    (he : bc.earliestContiguousHeight = .ok root.height) {fromHeight toHeight : UInt64} (hto : fromHeight ≤ toHeight)
    (hearly : root.height ≤ fromHeight) (hlate : fromHeight ≤ head.height) :
    bc.getBlocks fromHeight toHeight = .ok ((root :: l).filter fun b =>
      decide (fromHeight.toNat ≤ b.heightNat ∧ b.heightNat ≤ toHeight.toNat)) := by
  have hpos : ∀ b ∈ l, root.heightNat < b.heightNat := fun b hb => ((consecutive_cons.1 hcons).2.mem hb).1
  have hin : ¬ (fromHeight < root.height ∨ fromHeight > head.height) :=
    not_or.2 ⟨UInt64.not_lt.2 hearly, UInt64.not_lt.2 hlate⟩
  unfold Blockchain.getBlocks
  rw [if_neg (UInt64.not_lt.2 hto), he, Blockchain.getLatestBlock_ok_iff.2 hhead]
  simp only
  rw [if_neg hin, collectLoop_path hrootStored hp hpos _ _ hfuel]
  simp only [List.reverse_reverse]

/-- below the root and above the head there is nothing to serve -/
theorem getBlocks_outside {head : Block} (hhead : bc.blockAt bc.headHash = some head) {e : UInt64}
    (he : bc.earliestContiguousHeight = .ok e) {fromHeight toHeight : UInt64}
    (hout : fromHeight > toHeight ∨ fromHeight < e ∨ fromHeight > head.height) :
    bc.getBlocks fromHeight toHeight = .ok [] := by
  unfold Blockchain.getBlocks
  rw [he, Blockchain.getLatestBlock_ok_iff.2 hhead]
  by_cases hto : fromHeight > toHeight
  · rw [if_pos hto]
  · rw [if_neg hto]
    exact if_pos (hout.resolve_left hto)

end Walk

/-! ## The answer -/

section Answer

variable {ck : OverflowChecks} {U : BlockUniverse} {root : Block} {s0 : State} {bc : Blockchain} {blocks : List Block}
  {head : Block}

theorem Canonical.last (T : TreeInv ck U root s0 bc) (hcan : Canonical ck root s0 bc blocks)
    (hhead : bc.blockAt bc.headHash = some head) : blocks.getLastD root = head := by
  have hin := hcan.path.inTree T.rootStored
  rw [hhead] at hin
  exact (Option.some.inj hin).symm

theorem Canonical.consecutive (T : TreeInv ck U root s0 bc) (hcan : Canonical ck root s0 bc blocks)
    (hhead : bc.blockAt bc.headHash = some head) (hlt : head.heightNat < 2 ^ 64 - 1) :
    Consecutive Block.heightNat (root.heightNat + 1) blocks := by
  refine replay_consecutive hcan.replayed fun x hx => ?_
  rcases List.mem_cons.1 hx with rfl | hx
  · exact (T.height_le hhead T.rootStored).trans_lt hlt
  · exact (T.height_le hhead (hcan.path.stored x hx)).trans_lt hlt

theorem Canonical.head_height (T : TreeInv ck U root s0 bc) (hcan : Canonical ck root s0 bc blocks)
    (hhead : bc.blockAt bc.headHash = some head) (hlt : head.heightNat < 2 ^ 64 - 1) :
    head.heightNat = root.heightNat + blocks.length := by
  have hcons := hcan.consecutive T hhead hlt
  have hlast := hcan.last T hhead
  rcases blocks.eq_nil_or_concat with rfl | ⟨init, x, rfl⟩
  · exact (congrArg Block.heightNat hlast).symm
  · rw [List.concat_eq_append] at hlast hcons ⊢
    rw [List.getLastD_concat] at hlast
    subst hlast
    have hx := hcons.getLast? (x := x) (by simp)
    omega

theorem Canonical.earliest (hroot : root ∈ U.blocks) (T : TreeInv ck U root s0 bc)
    (hcan : Canonical ck root s0 bc blocks) (hhead : bc.blockAt bc.headHash = some head)
    (hlt : head.heightNat < 2 ^ 64 - 1) {a : UInt64} (he : bc.earliestContiguousHeight = .ok a) :
    blocks.length < bc.chain.len + 1 ∧ a = root.height := by
  unfold Blockchain.earliestContiguousHeight at he
  rw [Blockchain.getLatestBlock_ok_iff.2 hhead] at he
  have hcons := hcan.consecutive T hhead hlt
  refine earliestLoop_path hroot T hhead hlt hcan.path (fun b hb => ?_) he
  have := (hcons.mem hb).1
  omega

/-- the blocks of a window that begins at the root or above -/
theorem Canonical.getBlocks (hroot : root ∈ U.blocks) (T : TreeInv ck U root s0 bc)
    (hcan : Canonical ck root s0 bc blocks) (hhead : bc.blockAt bc.headHash = some head)
    (hlt : head.heightNat < 2 ^ 64 - 1) {a : UInt64} (he : bc.earliestContiguousHeight = .ok a)
    {fromHeight toHeight : UInt64} {j : ℕ} (hfrom : fromHeight.toNat = root.heightNat + j)
    (hto : fromHeight ≤ toHeight) :
    bc.getBlocks fromHeight toHeight =
      .ok (((root :: blocks).drop j).take (toHeight.toNat + 1 - fromHeight.toNat)) := by
  have hcons := hcan.consecutive T hhead hlt
  have hheight := hcan.head_height T hhead hlt
  obtain ⟨hfuel, rfl⟩ := hcan.earliest hroot T hhead hlt he
  have hall : Consecutive Block.heightNat root.heightNat (root :: blocks) := consecutive_cons.2 ⟨rfl, hcons⟩
  unfold Block.heightNat at hfrom hheight
  by_cases hj : j < blocks.length + 1
  · have hearly : root.height ≤ fromHeight := by
      rw [UInt64.le_iff_toNat_le]
      omega
    have hlate : fromHeight ≤ head.height := by
      rw [UInt64.le_iff_toNat_le]
      omega
    have hstart : root.heightNat ≤ fromHeight.toNat := UInt64.le_iff_toNat_le.1 hearly
    rw [getBlocks_path T.rootStored hcan.path hall hfuel hhead he hto hearly hlate, hall.filter hstart, hfrom,
      Block.heightNat, Nat.add_sub_cancel_left]
  · have hlate : fromHeight > head.height := by
      rw [gt_iff_lt, UInt64.lt_iff_toNat_lt]
      omega
    rw [getBlocks_outside hhead he (.inr (.inr hlate)), List.drop_of_length_le (Nat.le_of_not_lt hj), List.take_nil]

/-- the answer to a request that begins at block `j` of the root and the canonical chain -/
theorem Canonical.serve {e : NodeEngine} (hroot : root ∈ U.blocks) (T : TreeInv ck U root s0 e.blockchain)
    (hcan : Canonical ck root s0 e.blockchain blocks) (hhead : e.blockchain.blockAt e.blockchain.headHash = some head)
    (hlt : head.heightNat < 2 ^ 64 - 1) {a : UInt64} (he : e.blockchain.earliestContiguousHeight = .ok a)
    {fromHeight toHeight : UInt64} {j : ℕ} (hfrom : fromHeight.toNat = root.heightNat + j)
    (hj : j ≤ blocks.length + 1) (hto : fromHeight ≤ toHeight) {served : List Block}
    (hserved : served = ((root :: blocks).drop j).take (toHeight.toNat + 1 - fromHeight.toNat)) :
    e.syncResponse ⟨fromHeight, toHeight⟩ = .ok ⟨served, decide (j + served.length < blocks.length + 1),
      if j + served.length < blocks.length + 1 then some (UInt64.ofNat (root.heightNat + j + served.length)) else none⟩ := by
  have hcons := hcan.consecutive T hhead hlt
  have hall : Consecutive Block.heightNat root.heightNat (root :: blocks) := consecutive_cons.2 ⟨rfl, hcons⟩
  have hheight := hcan.head_height T hhead hlt
  have hblocks := hcan.getBlocks hroot T hhead hlt he hfrom hto
  rw [← hserved] at hblocks
  obtain ⟨-, ha⟩ := hcan.earliest hroot T hhead hlt he
  have hpiece : Consecutive Block.heightNat (root.heightNat + j) served := by
    rw [hserved]
    exact (hall.drop hj).take _
  have hle : j + served.length ≤ blocks.length + 1 := by
    rw [hserved, List.length_take, List.length_drop, List.length_cons]
    omega
  unfold NodeEngine.syncResponse
  rw [hblocks, he, Blockchain.getLatestBlock_ok_iff.2 hhead]
  simp only [bind, Except.bind, pure, Except.pure]
  cases hlast : served.getLast? with
  | none =>
    rw [List.getLast?_eq_none_iff] at hlast
    have hend : j = blocks.length + 1 := by
      by_contra hne
      have hlen := congrArg List.length hserved
      have hwidth : fromHeight.toNat ≤ toHeight.toNat := UInt64.le_iff_toNat_le.1 hto
      rw [hlast, List.length_take, List.length_drop, List.length_nil, List.length_cons] at hlen
      omega
    have hnext : ¬ (fromHeight < a ∧ a ≤ head.height) := by
      rw [ha, UInt64.lt_iff_toNat_lt]
      unfold Block.heightNat at hfrom
      omega
    have hstop : ¬ j + served.length < blocks.length + 1 := by omega
    simp [hnext, hstop]
  | some b =>
    have hb := hpiece.getLast? hlast
    have hmore : (b.height < head.height) ↔ j + served.length < blocks.length + 1 := by
      rw [UInt64.lt_iff_toNat_lt]
      unfold Block.heightNat at hb hheight
      omega
    have hnext : saturatingAdd b.height 1 = UInt64.ofNat (root.heightNat + j + served.length) := by
      have hsmall : b.heightNat + 1 < 2 ^ 64 := by omega
      have hone : (1 : UInt64).toNat = 1 := rfl
      apply UInt64.toNat_inj.1
      rw [toNat_saturatingAdd, UInt64.toNat_ofNat', ← hb, Nat.mod_eq_of_lt hsmall, hone]
      exact Nat.min_eq_left (Nat.le_sub_one_of_lt hsmall)
    simp only [hmore, hnext, decide_eq_true_eq]

end Answer

/-! ## Any server

What holds of the answers of every engine, whatever its tree looks like: the blocks are stored and in the window, and
`next_height` is above the request and not above the head. -/

section Any

variable {bc : Blockchain} {fromHeight toHeight : UInt64}

theorem collectLoop_spec {earliest : UInt64} {fuel : ℕ} {h : Hash} {blocks : List Block}
    (hc : bc.collectLoop fromHeight toHeight earliest fuel h = .ok blocks) :
    blocks.length ≤ fuel ∧ ∀ b ∈ blocks, fromHeight ≤ b.height ∧ ∃ h, bc.blockAt h = some b := by
  induction fuel generalizing h blocks with
  | zero => cases hc
  | succ fuel ih =>
    rw [Blockchain.collectLoop] at hc
    split at hc
    · cases hc
      exact ⟨Nat.zero_le _, fun b hb => absurd hb List.not_mem_nil⟩
    · rename_i node hnode
      have hstored : bc.blockAt h = some node.block := by
        rw [Blockchain.blockAt, hnode]
        rfl
      simp only at hc
      generalize hdef : (if node.block.height ≥ fromHeight ∧ node.block.height ≤ toHeight then [node.block] else []) =
        here at hc
      have hhere : here.length ≤ 1 ∧ ∀ b ∈ here, fromHeight ≤ b.height ∧ ∃ h, bc.blockAt h = some b := by
        split_ifs at hdef with hin
        · subst hdef
          refine ⟨le_rfl, fun b hb => ?_⟩
          rw [List.mem_singleton.1 hb]
          exact ⟨hin.1, h, hstored⟩
        · subst hdef
          exact ⟨Nat.zero_le _, fun b hb => absurd hb List.not_mem_nil⟩
      obtain ⟨hone, hmem⟩ := hhere
      split_ifs at hc
      · have heq := Except.ok.inj hc
        rw [← heq]
        exact ⟨by omega, hmem⟩
      · split at hc
        · cases hc
        · rename_i older holder
          obtain ⟨hlen, hold⟩ := ih holder
          have heq := Except.ok.inj hc
          rw [← heq, List.length_append]
          refine ⟨by omega, fun b hb => ?_⟩
          rcases List.mem_append.1 hb with hb | hb
          · exact hmem b hb
          · exact hold b hb

theorem getBlocks_spec {blocks : List Block} (hg : bc.getBlocks fromHeight toHeight = .ok blocks) :
    blocks.length ≤ bc.chain.len + 1 ∧ ∀ b ∈ blocks, fromHeight ≤ b.height ∧ ∃ h, bc.blockAt h = some b := by
  unfold Blockchain.getBlocks at hg
  have hnil : blocks = [] → blocks.length ≤ bc.chain.len + 1 ∧
      ∀ b ∈ blocks, fromHeight ≤ b.height ∧ ∃ h, bc.blockAt h = some b := by
    rintro rfl
    exact ⟨Nat.zero_le _, fun b hb => nomatch hb⟩
  split at hg
  · exact hnil (Except.ok.inj hg).symm
  · split at hg
    · cases hg
    · split at hg
      · cases hg
      · split at hg
        · exact hnil (Except.ok.inj hg).symm
        · split at hg
          · cases hg
          · rename_i collected hcollected
            obtain ⟨hlen, hmem⟩ := collectLoop_spec hcollected
            cases hg
            exact ⟨by rw [List.length_reverse]; exact hlen, fun b hb => hmem b (List.mem_reverse.1 hb)⟩

theorem syncResponse_spec {e : NodeEngine} {request : SyncRequest} {response : SyncResponse}
    (h : e.syncResponse request = .ok response) :
    (response.blocks.length ≤ e.blockchain.chain.len + 1 ∧ ∀ b ∈ response.blocks, ∃ h, e.blockchain.blockAt h = some b) ∧
      ∀ n, response.nextHeight = some n →
        ∃ latest, e.blockchain.getLatestBlock = .ok latest ∧ request.fromHeight < n ∧ n ≤ latest.height := by
  unfold NodeEngine.syncResponse at h
  cases hb : e.blockchain.getBlocks request.fromHeight request.toHeight with
  | error f => rw [hb] at h; cases h
  | ok blocks =>
    obtain ⟨hlen, hmem⟩ := getBlocks_spec hb
    rw [hb] at h
    cases he : e.blockchain.earliestContiguousHeight with
    | error f => rw [he] at h; cases h
    | ok earliest =>
      rw [he] at h
      cases hl : e.blockchain.getLatestBlock with
      | error f => rw [hl] at h; cases h
      | ok latest =>
        rw [hl] at h
        simp only [bind, Except.bind, pure, Except.pure] at h
        split at h
        · rename_i block hlast
          cases h
          refine ⟨⟨hlen, fun b hb => (hmem b hb).2⟩, fun n hn => ⟨latest, rfl, ?_⟩⟩
          have hfrom := (hmem block (List.mem_of_getLast? hlast)).1
          simp only [decide_eq_true_eq] at hn
          split_ifs at hn with hmore
          cases hn
          rw [UInt64.lt_iff_toNat_lt] at hmore ⊢
          rw [UInt64.le_iff_toNat_le] at hfrom ⊢
          have hone : (1 : UInt64).toNat = 1 := rfl
          have := latest.height.toNat_lt
          rw [toNat_saturatingAdd, hone]
          omega
        · cases h
          refine ⟨⟨hlen, fun b hb => (hmem b hb).2⟩, fun n hn => ⟨latest, rfl, ?_⟩⟩
          simp only at hn
          split_ifs at hn with hskip
          cases hn
          exact hskip

/-- below its history a server sends the client on to the beginning -/
theorem syncResponse_below {e : NodeEngine} {a : UInt64} {latest : Block}
    (he : e.blockchain.earliestContiguousHeight = .ok a) (hl : e.blockchain.getLatestBlock = .ok latest)
    (hlt : fromHeight < a) (hle : a ≤ latest.height) :
    e.syncResponse ⟨fromHeight, toHeight⟩ = .ok ⟨[], false, some a⟩ := by
  have hnone : e.blockchain.getBlocks fromHeight toHeight = .ok [] :=
    getBlocks_outside (Blockchain.getLatestBlock_ok_iff.1 hl) he (.inr (.inl hlt))
  unfold NodeEngine.syncResponse
  rw [hnone, he, hl]
  simp only [bind, Except.bind, pure, Except.pure, List.getLast?_nil]
  rw [if_pos ⟨hlt, hle⟩]

end Any

end Serve

end RustProof
