/-
Ledger integrity of the engine over whole runs.

The abstract ledger is a relation without any engine in it: `Derived b s` says that `s` is the state after block `b`, by
a chain of accepted blocks from the root. Without hash collisions it is a function of the hash (`Derived.functional`),
which is what lets every way a block enters the tree (child of the head, parked, recursively parked, reloaded snapshot)
use a parent state that some other part of the run computed.

`LedgerInv` ties the engine to it, and `ledgerRule` shows that every part of a step keeps it.

Results:
- `ledger_integrity`: after every step of every run the head is stored, the tree is closed under parents and accepted
  block by block, the state is the replay of the path to the head, the head is the maximum, and no step panics for a
  missing head.
-/
import RustProof.Node.Sample

namespace RustProof

section Ledger

variable [Crypto]

/-! ## The blocks of a run -/

/-- blocks among which SHA-256 does not collide -/
structure BlockUniverse where
  blocks : Set Block
  sized : ∀ b ∈ blocks, b.Sized
  noCollision : NoCollision blocks

theorem BlockUniverse.unsigned_eq (U : BlockUniverse) {a b : Block} (ha : a ∈ U.blocks) (hb : b ∈ U.blocks)
    (h : a.hash = b.hash) : a.unsigned = b.unsigned :=
  Block.unsigned_eq_of_hash_eq U.noCollision ha hb (U.sized a ha) (U.sized b hb) h

theorem height_eq_of_unsigned_eq {a b : Block} (h : a.unsigned = b.unsigned) : a.height = b.height := by
  have := congrArg Block.height h
  simpa using this

theorem slot_eq_of_unsigned_eq {a b : Block} (h : a.unsigned = b.unsigned) : a.slot = b.slot := by
  have := congrArg Block.slot h
  simpa using this

theorem previousHash_eq_of_unsigned_eq {a b : Block} (h : a.unsigned = b.unsigned) :
    a.previousHash = b.previousHash := by
  have := congrArg Block.previousHash h
  simpa using this

/-! ## The abstract ledger -/

/-- `s` is the state after block `b`, by a chain of accepted blocks from the root -/
inductive Derived (ck : OverflowChecks) (U : BlockUniverse) (root : Block) (s0 : State) : Block → State → Prop
  | root : Derived ck U root s0 root s0
  | child {p b : Block} {s s' : State} (parent : Derived ck U root s0 p s) (link : b.previousHash = p.hash)
      (mem : b ∈ U.blocks) (accepted : Accepted ck p s b s') : Derived ck U root s0 b s'

section Abstract

variable {ck : OverflowChecks} {U : BlockUniverse} {root : Block} {s0 : State}

theorem Derived.mem {b : Block} {s : State} (h : Derived ck U root s0 b s) (hroot : root ∈ U.blocks) :
    b ∈ U.blocks := by
  cases h with
  | root => exact hroot
  | child _ _ hm _ => exact hm

theorem Derived.mono {V : BlockUniverse} (hsub : U.blocks ⊆ V.blocks) {b : Block} {s : State}
    (h : Derived ck U root s0 b s) : Derived ck V root s0 b s := by
  induction h with
  | root => exact .root
  | child _ hlink hm hacc ih => exact .child ih hlink (hsub hm) hacc

theorem Derived.fits {b : Block} {s : State} (h : Derived ck U root s0 b s) (hs : s0.Fits) : s.Fits := by
  induction h with
  | root => exact hs
  | child _ _ _ hacc ih => exact hacc.fits ih

/-- slots grow along a chain -/
theorem Derived.slot_le {b : Block} {s : State} (h : Derived ck U root s0 b s) : root.slot ≤ b.slot := by
  induction h with
  | root => exact le_rfl
  | child _ _ _ hacc ih => exact ih.trans hacc.slot.le

/-- nothing but the root has the root's hash -/
theorem Derived.child_hash_ne {p b : Block} {s : State} (hroot : root ∈ U.blocks) (hp : Derived ck U root s0 p s)
    (hb : b ∈ U.blocks) (hslot : p.slot < b.slot) : b.hash ≠ root.hash := by
  intro h
  have heq := slot_eq_of_unsigned_eq (U.unsigned_eq hb hroot h)
  have hlt := hp.slot_le.trans_lt hslot
  rw [heq] at hlt
  exact lt_irrefl _ hlt

/-- one hash, one state -/
theorem Derived.functional (hroot : root ∈ U.blocks) {a b : Block} {s t : State} (ha : Derived ck U root s0 a s)
    (hb : Derived ck U root s0 b t) (h : a.hash = b.hash) : s = t := by
  induction ha generalizing b t with
  | root =>
    cases hb with
    | root => rfl
    | child hp _ hm hacc => exact absurd h.symm (Derived.child_hash_ne hroot hp hm hacc.slot)
  | @child p a s s' hp hlink hm hacc ih =>
    cases hb with
    | root => exact absurd h (Derived.child_hash_ne hroot hp hm hacc.slot)
    | @child p' _ t' _ hp' hlink' hm' hacc' =>
      have hu := U.unsigned_eq hm hm' h
      have hparent : p.hash = p'.hash := by
        rw [← hlink, ← hlink', previousHash_eq_of_unsigned_eq hu]
      have hstate := ih hp' hparent
      subst hstate
      exact hacc.unsigned_eq hacc' hu

/-- the state after the block with a given hash -/
def StateAt (ck : OverflowChecks) (U : BlockUniverse) (root : Block) (s0 : State) (h : Hash) (s : State) : Prop :=
  ∃ b, Derived ck U root s0 b s ∧ b.hash = h

theorem StateAt.functional (hroot : root ∈ U.blocks) {h : Hash} {s t : State} (hs : StateAt ck U root s0 h s)
    (ht : StateAt ck U root s0 h t) : s = t := by
  obtain ⟨a, ha, rfl⟩ := hs
  obtain ⟨b, hb, hh⟩ := ht
  exact ha.functional hroot hb hh.symm

/-- an accepted child of a known state is known, whichever variant of the parent it was checked on -/
theorem StateAt.child (hroot : root ∈ U.blocks) {p b : Block} {s s' : State} (hp : p ∈ U.blocks)
    (hs : StateAt ck U root s0 b.previousHash s) (hlink : p.hash = b.previousHash) (hm : b ∈ U.blocks)
    (hacc : Accepted ck p s b s') : Derived ck U root s0 b s' := by
  obtain ⟨q, hq, hqh⟩ := hs
  have hu := U.unsigned_eq hp (hq.mem hroot) (hlink.trans hqh.symm)
  exact .child hq hqh.symm hm (hacc.of_parent (height_eq_of_unsigned_eq hu) (slot_eq_of_unsigned_eq hu))

end Abstract

/-! ## What integrity means -/

/-- the blocks on the way from the root (not included) to a hash, oldest first, all stored -/
inductive Path (bc : Blockchain) (root : Block) : List Block → Hash → Prop
  | root : Path bc root [] root.hash
  | child {l : List Block} {h : Hash} {b : Block} (parent : Path bc root l h) (link : b.previousHash = h)
      (stored : bc.blockAt b.hash = some b) : Path bc root (l ++ [b]) b.hash

structure Integrity (ck : OverflowChecks) (root : Block) (s0 : State) (bc : Blockchain) : Prop where
  /-- `head_hash` is a key of the chain, so `get_latest_block` does not panic -/
  latest : ∃ b, bc.getLatestBlock = .ok b
  keys : ∀ h b, bc.blockAt h = some b → b.hash = h
  rootStored : bc.blockAt root.hash = some root
  /-- every other block was accepted on its parent, with the state of the path to the parent -/
  accepted : ∀ h b, bc.blockAt h = some b → h ≠ root.hash →
    ∃ parent path s applied, bc.blockAt b.previousHash = some parent ∧ Path bc root path b.previousHash ∧
      replay ck root s0 path = .ok (.ok s) ∧ validateAndApplyBlock ck parent s b = .ok (.ok applied)
  /-- the state is the replay of the path to the head -/
  state : ∃ path, Path bc root path bc.headHash ∧ replay ck root s0 path = .ok (.ok bc.state)
  /-- the head is the maximum of the chain -/
  maximum : ∀ head h b, bc.blockAt bc.headHash = some head → bc.blockAt h = some b → rank h b ≤ rank bc.headHash head

/-! ## The invariant -/

structure TreeInv (ck : OverflowChecks) (U : BlockUniverse) (root : Block) (s0 : State) (bc : Blockchain) : Prop where
  rootStored : bc.blockAt root.hash = some root
  keys : ∀ h b, bc.blockAt h = some b → b.hash = h
  derived : ∀ h b, bc.blockAt h = some b → ∃ s, Derived ck U root s0 b s
  parents : ∀ h b, bc.blockAt h = some b → h ≠ root.hash → ∃ p, bc.blockAt b.previousHash = some p
  head : ∃ head, bc.blockAt bc.headHash = some head ∧
    ∀ h b, bc.blockAt h = some b → rank h b ≤ rank bc.headHash head
  state : StateAt ck U root s0 bc.headHash bc.state

/-- blocks with `P` are parked, each under its parent's hash -/
def Parked (P : Block → Prop) (e : NodeEngine) : Prop :=
  ∀ h l, e.pendingBlocks.get? h = some l → ∀ p ∈ l, P p.block ∧ p.block.previousHash = h

theorem Parked.park {P : Block → Prop} {e : NodeEngine} (he : Parked P e) (peer : PeerId) {b : Block} (hb : P b) :
    Parked P (e.park peer b) := by
  intro h l hl p hp
  simp only [NodeEngine.park, BTreeMap.get?_insert] at hl
  split_ifs at hl with hh
  · cases hl
    rcases List.mem_append.1 hp with hp | hp
    · cases hold : e.pendingBlocks.get? b.previousHash with
      | none => rw [BTreeMap.getD, hold] at hp; cases hp
      | some l' =>
        rw [BTreeMap.getD, hold] at hp
        exact hh ▸ he _ l' hold p hp
    · rw [List.mem_singleton.1 hp]
      exact ⟨hb, hh⟩
  · exact he h l hl p hp

theorem Parked.take {P : Block → Prop} {e : NodeEngine} (he : Parked P e) (h : Hash) :
    Parked P { e with pendingBlocks := e.pendingBlocks.remove h } := by
  intro x l hl
  simp only [BTreeMap.get?_remove] at hl
  split_ifs at hl
  exact he x l hl

theorem Parked.of_same {P : Block → Prop} {e e' : NodeEngine} (he : Parked P e) (h : e.SameLedger e') : Parked P e' := by
  rw [Parked, h.pending]
  exact he

structure LedgerInv (ck : OverflowChecks) (U : BlockUniverse) (root : Block) (s0 : State) (e : NodeEngine)
    (log : List NodeAction) : Prop where
  tree : TreeInv ck U root s0 e.blockchain
  parked : Parked (· ∈ U.blocks) e
  snapshots : ∀ h bytes, NodeAction.persistSnapshot h bytes ∈ log →
    ∃ s, StateAt ck U root s0 h s ∧ bytes = s.toBytes

section Invariant

variable {ck : OverflowChecks} {U : BlockUniverse} {root : Block} {s0 : State}

/-- the paths of a tree, replayed -/
theorem TreeInv.path {bc : Blockchain} (hroot : root ∈ U.blocks) (T : TreeInv ck U root s0 bc) {b : Block} {s : State}
    (hd : Derived ck U root s0 b s) {c : Block} (hc : bc.blockAt b.hash = some c) :
    ∃ path, Path bc root path b.hash ∧ replay ck root s0 path = .ok (.ok s) ∧ path.getLastD root = c := by
  induction hd generalizing c with
  | root =>
    rw [T.rootStored] at hc
    exact ⟨[], .root, rfl, Option.some.inj hc⟩
  | @child p b s s' hp hlink hm hacc ih =>
    have hne := Derived.child_hash_ne hroot hp hm hacc.slot
    have hkey := T.keys _ _ hc
    obtain ⟨t, hdc⟩ := T.derived _ _ hc
    have hmem := hdc.mem hroot
    have hprev : c.previousHash = p.hash := by
      rw [previousHash_eq_of_unsigned_eq (U.unsigned_eq hmem hm hkey), hlink]
    obtain ⟨p₀, hp₀⟩ := T.parents _ _ hc hne
    rw [hprev] at hp₀
    obtain ⟨path, hpath, hreplay, hlast⟩ := ih hp₀
    -- the stored variant was itself accepted on the state of its parent's hash
    have hacc₀ : Accepted ck p₀ s c t := by
      cases hdc with
      | root => exact absurd hkey.symm hne
      | @child q _ sq _ hq hlq _ haccq =>
        have hq' : q.hash = p.hash := hlq.symm.trans hprev
        have hstate := hq.functional hroot hp hq'
        subst hstate
        obtain ⟨t₀, hdp₀⟩ := T.derived _ _ hp₀
        have hu := U.unsigned_eq (hq.mem hroot) (hdp₀.mem hroot) (hq'.trans (T.keys _ _ hp₀).symm)
        exact haccq.of_parent (height_eq_of_unsigned_eq hu) (slot_eq_of_unsigned_eq hu)
    have hfinal : t = s' := hdc.functional hroot (.child hp hlink hm hacc) hkey
    subst hfinal
    refine ⟨path ++ [c], ?_, replay_snoc hreplay (by rwa [hlast]), by simp⟩
    rw [← hkey]
    exact .child hpath hprev (by rw [hkey]; exact hc)

theorem TreeInv.integrity {bc : Blockchain} (hroot : root ∈ U.blocks) (T : TreeInv ck U root s0 bc) :
    Integrity ck root s0 bc := by
  obtain ⟨head, hhead, hmax⟩ := T.head
  refine ⟨⟨head, Blockchain.getLatestBlock_ok_iff.2 hhead⟩, T.keys, T.rootStored, fun h b hb hne => ?_, ?_,
    fun hd h b hh hb => ?_⟩
  · obtain ⟨p, hp⟩ := T.parents h b hb hne
    obtain ⟨t, hdb⟩ := T.derived h b hb
    obtain ⟨sp, hdp⟩ := T.derived _ _ hp
    have hkp := T.keys _ _ hp
    obtain ⟨path, hpath, hreplay, hlast⟩ := T.path hroot hdp (c := p) (by rw [hkp]; exact hp)
    rw [hkp] at hpath
    cases hdb with
    | root => exact absurd (T.keys h root hb).symm hne
    | @child q _ sq _ hq hlq _ hacc =>
      have hqp : q.hash = p.hash := hlq.symm.trans hkp.symm
      have hstate := hq.functional hroot hdp hqp
      subst hstate
      have hu := U.unsigned_eq (hq.mem hroot) (hdp.mem hroot) hqp
      exact ⟨p, path, sq, ⟨t⟩, hp, hpath, hreplay, validate_ok_iff.2
        (hacc.of_parent (height_eq_of_unsigned_eq hu) (slot_eq_of_unsigned_eq hu))⟩
  · obtain ⟨b, hd, hbh⟩ := T.state
    obtain ⟨path, hpath, hreplay, -⟩ := T.path hroot hd (c := head) (by rw [hbh]; exact hhead)
    rw [hbh] at hpath
    exact ⟨path, hpath, hreplay⟩
  · rw [hhead] at hh
    cases hh
    exact hmax h b hb

/-! ## The invariant is kept -/

theorem TreeInv.mem {bc : Blockchain} (hroot : root ∈ U.blocks) (T : TreeInv ck U root s0 bc) {h : Hash} {b : Block}
    (hb : bc.blockAt h = some b) : b ∈ U.blocks := by
  obtain ⟨s, hd⟩ := T.derived h b hb
  exact hd.mem hroot

/-- an import on the right state derives its block -/
theorem TreeInv.derived_of_added {bc bc' : Blockchain} {b : Block} {s : State} {imported : ImportedBlock}
    (hroot : root ∈ U.blocks) (T : TreeInv ck U root s0 bc) (hb : b ∈ U.blocks)
    (hs : StateAt ck U root s0 b.previousHash s) (hadd : Blockchain.Added ck bc b s bc' imported) :
    Derived ck U root s0 b imported.nextState := by
  obtain ⟨p, hp, hacc⟩ := hadd.accepted
  exact StateAt.child hroot (T.mem hroot hp) hs (T.keys _ _ hp) hb hacc

/-- an import keeps the head the maximum, as long as what is stored under the block's hash is the block itself -/
theorem Blockchain.Added.maximum {bc bc' : Blockchain} {b : Block} {s : State} {imported : ImportedBlock}
    (hadd : Blockchain.Added ck bc b s bc' imported) (hsame : ∀ x, bc.blockAt b.hash = some x → x.unsigned = b.unsigned)
    (hmax : ∃ head, bc.blockAt bc.headHash = some head ∧
      ∀ h x, bc.blockAt h = some x → rank h x ≤ rank bc.headHash head) :
    ∃ head, bc'.blockAt bc'.headHash = some head ∧
      ∀ h x, bc'.blockAt h = some x → rank h x ≤ rank bc'.headHash head := by
  obtain ⟨head, hhead, hmax⟩ := hmax
  obtain ⟨latest, hlatest, hchoice⟩ := hadd.choice
  rw [Blockchain.blockAfter_of_some b hhead] at hlatest
  cases hlatest
  -- a stored block is an old one or the imported one
  have hcases : ∀ h x, bc'.blockAt h = some x → bc.blockAt h = some x ∨ h = b.hash ∧ x = b := by
    intro h x hx
    rw [hadd.blocks] at hx
    exact (Blockchain.blockAfter_cases hx).imp_right And.right
  rw [hadd.head]
  cases hbecame : imported.becameHead with
  | true =>
    rw [hbecame] at hchoice
    have hlt := shouldReplaceHead_iff.1 hchoice.symm
    obtain ⟨v, hv⟩ : ∃ v, bc'.blockAt b.hash = some v := by
      rw [hadd.blocks, Blockchain.blockAfter, if_pos rfl]
      exact ⟨_, rfl⟩
    -- the block stored under the new head's hash ranks as the imported one
    have hrank : rank b.hash v = rank b.hash b := by
      rcases hcases _ v hv with hold | ⟨-, rfl⟩
      · exact rank_congr (hsame v hold)
      · rfl
    refine ⟨v, hv, fun h x hx => ?_⟩
    rw [if_pos rfl, hrank]
    rcases hcases h x hx with hold | ⟨rfl, rfl⟩
    · exact (hmax h x hold).trans hlt.le
    · exact le_rfl
  | false =>
    rw [hbecame] at hchoice
    have hnot : ¬ rank bc.headHash head < rank b.hash b := fun hlt => by
      rw [shouldReplaceHead_iff.2 hlt] at hchoice
      cases hchoice
    refine ⟨head, ?_, fun h x hx => ?_⟩
    · rw [if_neg Bool.false_ne_true, hadd.blocks]
      exact Blockchain.blockAfter_of_some b hhead
    rcases hcases h x hx with hold | ⟨rfl, rfl⟩
    · exact hmax h x hold
    · exact not_lt.1 hnot

theorem TreeInv.added {bc bc' : Blockchain} {b : Block} {s : State} {imported : ImportedBlock}
    (hroot : root ∈ U.blocks) (T : TreeInv ck U root s0 bc) (hb : b ∈ U.blocks)
    (hs : StateAt ck U root s0 b.previousHash s) (hadd : Blockchain.Added ck bc b s bc' imported) :
    TreeInv ck U root s0 bc' := by
  have hdb := T.derived_of_added hroot hb hs hadd
  obtain ⟨p, hp, -⟩ := hadd.accepted
  -- a stored block is an old one or the imported one
  have hcases : ∀ h x, bc'.blockAt h = some x → bc.blockAt h = some x ∨ h = b.hash ∧ x = b := by
    intro h x hx
    rw [hadd.blocks] at hx
    rcases Blockchain.blockAfter_cases hx with hold | ⟨-, hh, hxb⟩
    · exact .inl hold
    · exact .inr ⟨hh, hxb⟩
  have hkeep : ∀ h x, bc.blockAt h = some x → bc'.blockAt h = some x := by
    intro h x hx
    rw [hadd.blocks]
    exact Blockchain.blockAfter_of_some b hx
  refine ⟨hkeep _ _ T.rootStored, fun h x hx => ?_, fun h x hx => ?_, fun h x hx hne => ?_, ?_, ?_⟩
  · rcases hcases h x hx with hold | ⟨rfl, rfl⟩
    · exact T.keys h x hold
    · rfl
  · rcases hcases h x hx with hold | ⟨rfl, rfl⟩
    · exact T.derived h x hold
    · exact ⟨_, hdb⟩
  · rcases hcases h x hx with hold | ⟨rfl, rfl⟩
    · obtain ⟨q, hq⟩ := T.parents h x hold hne
      exact ⟨q, hkeep _ _ hq⟩
    · exact ⟨p, hkeep _ _ hp⟩
  · refine hadd.maximum (fun x hx => ?_) T.head
    exact U.unsigned_eq (T.mem hroot hx) hb (T.keys _ _ hx)
  · rw [hadd.head, hadd.state]
    cases imported.becameHead with
    | true => exact ⟨b, hdb, rfl⟩
    | false => exact T.state

theorem TreeInv.of_same {e e' : NodeEngine} (T : TreeInv ck U root s0 e.blockchain) (h : e.SameLedger e') :
    TreeInv ck U root s0 e'.blockchain := by
  have hblock : ∀ x, e'.blockchain.blockAt x = e.blockchain.blockAt x := fun x => by
    rw [Blockchain.blockAt, h.chain]
    rfl
  refine ⟨?_, ?_, ?_, ?_, ?_, ?_⟩
  · rw [hblock]; exact T.rootStored
  · intro x b hx; rw [hblock] at hx; exact T.keys x b hx
  · intro x b hx; rw [hblock] at hx; exact T.derived x b hx
  · intro x b hx hne; rw [hblock] at hx ⊢; exact T.parents x b hx hne
  · simp only [hblock, h.head]; exact T.head
  · rw [h.head, h.state]; exact T.state

/-- more blocks seen change nothing about the tree -/
theorem TreeInv.mono {bc : Blockchain} {V : BlockUniverse} (hsub : U.blocks ⊆ V.blocks) (T : TreeInv ck U root s0 bc) :
    TreeInv ck V root s0 bc := by
  refine ⟨T.rootStored, T.keys, fun h b hb => ?_, T.parents, T.head, ?_⟩
  · obtain ⟨s, hd⟩ := T.derived h b hb
    exact ⟨s, hd.mono hsub⟩
  · obtain ⟨b, hd, hb⟩ := T.state
    exact ⟨b, hd.mono hsub, hb⟩

theorem snapshots_append {log acts : List NodeAction}
    (h : ∀ x bytes, NodeAction.persistSnapshot x bytes ∈ log → ∃ s, StateAt ck U root s0 x s ∧ bytes = s.toBytes)
    (h' : ∀ x bytes, NodeAction.persistSnapshot x bytes ∈ acts → ∃ s, StateAt ck U root s0 x s ∧ bytes = s.toBytes) :
    ∀ x bytes, NodeAction.persistSnapshot x bytes ∈ log ++ acts →
      ∃ s, StateAt ck U root s0 x s ∧ bytes = s.toBytes := by
  intro x bytes hmem
  rcases List.mem_append.1 hmem with hmem | hmem
  · exact h x bytes hmem
  · exact h' x bytes hmem

theorem not_quiet_snapshot {acts : List NodeAction} (h : ∀ a ∈ acts, a.Quiet) (x : Hash) (bytes : List UInt8) :
    NodeAction.persistSnapshot x bytes ∉ acts := fun hmem => h _ hmem

/-- every part of a step keeps the ledger -/
theorem ledgerRule (ck : OverflowChecks) (s0 : State) (hroot : root ∈ U.blocks) :
    NodeEngine.EngineRule ck (fun _ _ => True) (· ∈ U.blocks) (StateAt ck U root s0) (· ≠ .missingHead)
      (fun _ => LedgerInv ck U root s0) (fun _ _ => LedgerInv ck U root s0) where
  quiet hI hsame hq :=
    ⟨hI.tree.of_same hsame, hI.parked.of_same hsame,
      snapshots_append hI.snapshots fun x bytes hmem => absurd hmem (not_quiet_snapshot hq x bytes)⟩
  note hI := ⟨hI.tree, hI.parked, snapshots_append hI.snapshots (by simp)⟩
  report hI := ⟨hI.tree, hI.parked, snapshots_append hI.snapshots (by simp)⟩
  park hI hb _ := ⟨hI.tree, hI.parked.park _ hb, snapshots_append hI.snapshots (by simp)⟩
  direct hI _ _ := hI
  head hI := hI.tree.state
  skip hI _ := hI
  take hI hp := ⟨⟨hI.tree, hI.parked.take _, hI.snapshots⟩, hI.parked _ _ hp⟩
  add := by
    intro l e log b s bc imported hI hb hs _ hadd
    have hadded := Blockchain.addBlock_ok hadd
    have hdb := hI.tree.derived_of_added hroot hb hs hadded
    have hI' : LedgerInv ck U root s0 { e with blockchain := bc }
        (log ++ [.persistBlock b, .persistSnapshot b.hash imported.nextState.toBytes]) := by
      refine ⟨hI.tree.added hroot hb hs hadded, hI.parked, snapshots_append hI.snapshots fun x bytes hmem => ?_⟩
      simp only [List.mem_cons, reduceCtorEq, NodeAction.persistSnapshot.injEq, List.not_mem_nil, or_false,
        false_or] at hmem
      obtain ⟨rfl, rfl⟩ := hmem
      exact ⟨imported.nextState, ⟨b, hdb, rfl⟩, rfl⟩
    exact ⟨⟨b, hdb, rfl⟩, hI', fun _ => hI'⟩
  refuse hI _ _ _ := ⟨hI.tree, hI.parked, snapshots_append hI.snapshots (by simp)⟩
  addFault := by
    intro l e log b s f hI _ _ hadd
    obtain ⟨head, hhead, -⟩ := hI.tree.head
    obtain ⟨parent, hv⟩ := Blockchain.addBlock_error hhead hadd
    have hsafe := validate_safe ck parent b s
    rw [hv] at hsafe
    rintro rfl
    exact hsafe
  latestFault := by
    intro l e log f hI hl
    obtain ⟨head, hhead, -⟩ := hI.tree.head
    rw [Blockchain.getLatestBlock_ok_iff.2 hhead] at hl
    cases hl
  serveFault := by
    intro l e log request f hI hs
    obtain ⟨head, hhead, -⟩ := hI.tree.head
    rw [NodeEngine.syncResponse_error hhead hs]
    exact fun h => nomatch h

end Invariant

/-! ## Runs -/

/-- the engines a process can hold: a fresh one, then any inputs and any restores -/
inductive Reachable (ck : OverflowChecks) : NodeEngine → Prop
  | new : Reachable ck (.new .new)
  | step {e e' : NodeEngine} {input : NodeInput} {acts : List NodeAction} (prev : Reachable ck e)
      (step : e.step ck input = .ok (e', acts)) : Reachable ck e'
  | restore {e e' : NodeEngine} {block : Option Block} {bytes : Option (List UInt8)} {acts : List NodeAction}
      (prev : Reachable ck e) (restore : e.restoreLatestSnapshot block bytes = .ok (e', acts)) : Reachable ck e'

/-- where a run starts: a new engine, or any engine that accepted a snapshot; with its root block and the root's state -/
inductive Start (ck : OverflowChecks) : NodeEngine → Block → State → Prop
  | new : Start ck (.new .new) genesisBlock State.new
  | restored {e e0 : NodeEngine} {root : Block} {bytes : List UInt8} {s0 : State} (reachable : Reachable ck e)
      (sized : root.Sized) (decoded : State.fromBytes bytes = .ok (.ok s0))
      (accepted : e.restoreLatestSnapshot (some root) (some bytes) =
        .ok (e0, [.reportEvent "startup snapshot restored"])) : Start ck e0 root s0

/-- storage replies with a snapshot it was given under that hash, or with the root's own state -/
def Truthful (root : Block) (s0 : State) (log : List NodeAction) : NodeInput → Prop
  | .storageLoaded h (some bytes) =>
    NodeAction.persistSnapshot h bytes ∈ log ∨ h = root.hash ∧ State.fromBytes bytes = .ok (.ok s0)
  | _ => True

/-- a run from `e0`, with everything emitted and everything fed so far -/
inductive Run (ck : OverflowChecks) (root : Block) (s0 : State) (e0 : NodeEngine) :
    NodeEngine → List NodeAction → List NodeInput → Prop
  | start : Run ck root s0 e0 e0 [] []
  | step {e e' : NodeEngine} {log acts : List NodeAction} {inputs : List NodeInput} {input : NodeInput}
      (prev : Run ck root s0 e0 e log inputs) (truthful : Truthful root s0 log input)
      (step : e.step ck input = .ok (e', acts)) : Run ck root s0 e0 e' (log ++ acts) (inputs ++ [input])

/-- `Truthful`, evaluated; a reply for the root is taken in its canonical encoding only -/
def truthful? (root : Block) (s0 : State) (log : List NodeAction) : NodeInput → Bool
  | .storageLoaded h (some bytes) =>
    (log.any fun
      | .persistSnapshot h' bytes' => decide (h' = h ∧ bytes' = bytes)
      | _ => false) || decide (h = root.hash ∧ bytes = s0.toBytes)
  | _ => true

theorem truthful_of_check {root : Block} {s0 : State} (hfits : s0.Fits) {log : List NodeAction} {input : NodeInput}
    (h : truthful? root s0 log input = true) : Truthful root s0 log input := by
  unfold truthful? at h
  split at h
  · rename_i x bytes
    rcases Bool.or_eq_true_iff.1 h with h | h
    · obtain ⟨a, ha, hmatch⟩ := List.any_eq_true.1 h
      split at hmatch
      · obtain ⟨rfl, rfl⟩ := of_decide_eq_true hmatch
        exact .inl ha
      · cases hmatch
    · obtain ⟨rfl, rfl⟩ := of_decide_eq_true h
      have hround := fromBytes_toBytes hfits []
      rw [List.append_nil] at hround
      exact .inr ⟨rfl, hround⟩
  · rename_i hother
    unfold Truthful
    split
    · rename_i x bytes
      exact absurd rfl (hother x bytes)
    · trivial

/-- the root, the blocks parked at the start, and the blocks the inputs brought -/
def blocksSeen (root : Block) (e0 : NodeEngine) (inputs : List NodeInput) : Set Block :=
  {b | b = root ∨ (∃ h l p, e0.pendingBlocks.get? h = some l ∧ p ∈ l ∧ b = p.block) ∨ ∃ i ∈ inputs, b ∈ i.blocks}

/-- with nothing parked at the start, the blocks seen are those of a list -/
theorem mem_of_blocksSeen {root : Block} {e0 : NodeEngine} {inputs : List NodeInput} (hempty : e0.pendingBlocks = .empty)
    {b : Block} (hb : b ∈ blocksSeen root e0 inputs) : b ∈ root :: inputs.flatMap NodeInput.blocks := by
  rcases hb with rfl | ⟨x, l, p, hl, -, -⟩ | ⟨i, hi, hb⟩
  · exact List.mem_cons_self
  · rw [hempty, BTreeMap.get?_empty] at hl
    cases hl
  · exact List.mem_cons_of_mem _ (List.mem_flatMap.2 ⟨i, hi, hb⟩)

theorem noCollision_of_list {root : Block} {inputs : List NodeInput}
    (h : ∀ a ∈ root :: inputs.flatMap NodeInput.blocks, ∀ b ∈ root :: inputs.flatMap NodeInput.blocks,
      a.hash = b.hash → a.toBytes = b.toBytes) : NoCollision (blocksSeen root (.new .new) inputs) :=
  fun a ha b hb => h a (mem_of_blocksSeen rfl ha) b (mem_of_blocksSeen rfl hb)

theorem NodeInput.blocks_sized {input : NodeInput} {b : Block} (h : b ∈ input.blocks) : b.Sized := by
  cases input with
  | frameReceived peer frame =>
    simp only [NodeInput.blocks] at h
    cases hm : NetworkMessage.fromBytes frame with
    | error err => rw [hm] at h; cases h
    | ok m =>
      have hsized := fromBytes_sized hm
      rw [hm] at h
      cases m with
      | announceRequest request =>
        obtain ⟨kind⟩ := request
        cases kind with
        | newBlock block => rw [List.mem_singleton.1 h]; exact hsized
        | newTransaction tx => cases h
      | syncResponse response => exact hsized.2 b h
      | syncRequest request => cases h
      | announceResponse response => cases h
  | tick nowMs => cases h
  | peerConnected peer => cases h
  | peerDisconnected peer => cases h
  | localTransactionSubmitted tx => cases h
  | storageLoaded x bytes => cases h
  | persistCompleted k => cases h
  | importRequested peer a c => cases h

/-! ### Parked blocks, in every process -/

theorem parkedRule (ck : OverflowChecks) :
    NodeEngine.EngineRule ck (fun _ _ => True) Block.Sized (fun _ _ => True) (fun _ => True)
      (fun _ e _ => Parked Block.Sized e) (fun _ _ e _ => Parked Block.Sized e) where
  quiet hI hsame _ := hI.of_same hsame
  note hI := hI
  report hI := hI
  park hI hb _ := hI.park _ hb
  direct hI _ _ := hI
  head _ := trivial
  skip hI _ := hI
  take hI hp := ⟨hI.take _, hI _ _ hp⟩
  add hI _ _ _ _ := ⟨trivial, hI, fun _ => hI⟩
  refuse hI _ _ _ := hI
  addFault _ _ _ _ := trivial
  latestFault _ _ := trivial
  serveFault _ _ := trivial

/-- a rule without conditions about a property of the engine: a step keeps the property -/
theorem NodeEngine.EngineRule.keeps {ck : OverflowChecks} {I : NodeEngine → Prop}
    (R : NodeEngine.EngineRule ck (fun _ _ => True) Block.Sized (fun _ _ => True) (fun _ => True) (fun _ e _ => I e)
      fun _ _ e _ => I e) {e e' : NodeEngine} (hI : I e) {input : NodeInput} {acts : List NodeAction}
    (hstep : e.step ck input = .ok (e', acts)) : I e' := by
  have hC : e.StepMeets (fun _ _ => True) ck input := NodeEngine.stepMeets_of_forall (fun _ _ => trivial) e input
  have hhandle : Safe (fun _ => True) (fun r => I r.1) (e.handle ck input) := by
    by_cases hload : ∃ h bytes, input = .storageLoaded h bytes
    · obtain ⟨h, bytes, rfl⟩ := hload
      exact R.loaded (l := []) [] (fun _ => hI) (fun _ => hI) (fun _ _ _ _ => ⟨hI, trivial⟩) (fun _ _ _ _ => hI)
        (fun _ _ _ _ => trivial) hC
    · push Not at hload
      exact R.handle (l := []) [] hI (fun b hb => NodeInput.blocks_sized hb) hC hload
  have hsafe := R.step_of_handle (l := []) [] hhandle
  rw [hstep] at hsafe
  exact hsafe

theorem Reachable.parked {ck : OverflowChecks} {e : NodeEngine} (h : Reachable ck e) : Parked Block.Sized e := by
  induction h with
  | new => exact fun h l hl => by simp [NodeEngine.new] at hl
  | step _ hstep ih => exact (parkedRule ck).keeps ih hstep
  | @restore e e' block bytes acts _ hrestore ih =>
    have hpending : e'.pendingBlocks = e.pendingBlocks := by
      unfold NodeEngine.restoreLatestSnapshot at hrestore
      split at hrestore
      · split at hrestore
        · cases hrestore
        · cases hrestore; rfl
        · split_ifs at hrestore <;> cases hrestore <;> rfl
      · cases hrestore; rfl
    rw [Parked, hpending]
    exact ih

/-! ### The start -/

theorem Blockchain.blockAt_single {bc : Blockchain} {root b : Block} {h : Hash}
    (hchain : bc.chain = BTreeMap.empty.insert root.hash ⟨root, []⟩) :
    bc.blockAt h = some b ↔ h = root.hash ∧ b = root := by
  rw [Blockchain.blockAt, hchain, BTreeMap.get?_insert]
  split_ifs with hh
  · simp [hh, eq_comm]
  · simp [Ne.symm hh]

/-- a tree of the root alone -/
theorem TreeInv.single {ck : OverflowChecks} {U : BlockUniverse} {root : Block} {s0 : State} (bc : Blockchain)
    (hchain : bc.chain = BTreeMap.empty.insert root.hash ⟨root, []⟩) (hhead : bc.headHash = root.hash)
    (hstate : bc.state = s0) : TreeInv ck U root s0 bc := by
  have hblock : ∀ h b, bc.blockAt h = some b → h = root.hash ∧ b = root := fun h b =>
    (Blockchain.blockAt_single hchain).1
  have hroot : bc.blockAt root.hash = some root := (Blockchain.blockAt_single hchain).2 ⟨rfl, rfl⟩
  refine ⟨hroot, fun h b hb => ?_, fun h b hb => ?_, fun h b hb hne => ?_, ?_, ?_⟩
  · obtain ⟨rfl, rfl⟩ := hblock h b hb
    rfl
  · obtain ⟨rfl, rfl⟩ := hblock h b hb
    exact ⟨s0, .root⟩
  · exact absurd (hblock h b hb).1 hne
  · rw [hhead]
    refine ⟨root, hroot, fun h b hb => ?_⟩
    obtain ⟨rfl, rfl⟩ := hblock h b hb
    exact le_rfl
  · rw [hhead, hstate]
    exact ⟨root, .root, rfl⟩

/-- an accepted restore installs the block as the only one, with the decoded state -/
theorem restore_accepted {e e0 : NodeEngine} {root : Block} {bytes : List UInt8} {s0 : State}
    (hdec : State.fromBytes bytes = .ok (.ok s0))
    (h : e.restoreLatestSnapshot (some root) (some bytes) = .ok (e0, [.reportEvent "startup snapshot restored"])) :
    root.stateRoot = s0.computeStateRoot ∧ e0 = { e with blockchain := .restoreHead root s0 } := by
  simp only [NodeEngine.restoreLatestSnapshot, hdec] at h
  split_ifs at h with hroot
  · simp at h
  · exact ⟨not_not.1 hroot, ((Prod.mk.inj (Except.ok.inj h)).1).symm⟩

/-- a snapshot with the root's state root is accepted -/
theorem restore_of_root (e : NodeEngine) {root : Block} {bytes : List UInt8} {s0 : State}
    (hdec : State.fromBytes bytes = .ok (.ok s0)) (hroot : root.stateRoot = s0.computeStateRoot) :
    e.restoreLatestSnapshot (some root) (some bytes) =
      .ok ({ e with blockchain := .restoreHead root s0 }, [.reportEvent "startup snapshot restored"]) := by
  simp only [NodeEngine.restoreLatestSnapshot, hdec]
  rw [if_neg (not_not.2 hroot)]

section Start

variable {ck : OverflowChecks} {root : Block} {s0 : State} {e0 : NodeEngine}

theorem Start.restore {e : NodeEngine} (he : Reachable ck e) (hsized : root.Sized) (hfits : s0.Fits)
    (hroot : root.stateRoot = s0.computeStateRoot) :
    Start ck { e with blockchain := .restoreHead root s0 } root s0 := by
  have hdec := fromBytes_toBytes hfits []
  rw [List.append_nil] at hdec
  exact .restored he hsized hdec (restore_of_root e hdec hroot)

theorem Start.fits (h : Start ck e0 root s0) : s0.Fits := by
  cases h with
  | new => exact State.new_fits
  | restored _ _ hdec _ => exact fromBytes_fits hdec

theorem Start.sized (h : Start ck e0 root s0) : root.Sized := by
  cases h with
  | new => exact genesisBlock_sized
  | restored _ hs _ _ => exact hs

theorem Start.parked (h : Start ck e0 root s0) : Parked Block.Sized e0 := by
  cases h with
  | new => exact (Reachable.new : Reachable ck _).parked
  | restored hr _ _ hacc => exact (Reachable.restore hr hacc).parked

/-- a start holds the root alone -/
theorem Start.chain (h : Start ck e0 root s0) : e0.blockchain.chain = BTreeMap.empty.insert root.hash ⟨root, []⟩ ∧
    e0.blockchain.headHash = root.hash ∧ e0.blockchain.state = s0 := by
  cases h with
  | new => exact ⟨rfl, rfl, rfl⟩
  | restored _ _ hdec hacc =>
    obtain ⟨-, rfl⟩ := restore_accepted hdec hacc
    exact ⟨rfl, rfl, rfl⟩

theorem Start.blockAt_start (h : Start ck e0 root s0) {x : Hash} {b : Block} (hb : e0.blockchain.blockAt x = some b) :
    x = root.hash := ((Blockchain.blockAt_single h.chain.1).1 hb).1

theorem Start.tree (h : Start ck e0 root s0) (U : BlockUniverse) : TreeInv ck U root s0 e0.blockchain :=
  TreeInv.single _ h.chain.1 h.chain.2.1 h.chain.2.2

/-- the blocks of a run, none colliding -/
def Start.universe (h : Start ck e0 root s0) (inputs : List NodeInput) (hc : NoCollision (blocksSeen root e0 inputs)) :
    BlockUniverse where
  blocks := blocksSeen root e0 inputs
  sized := by
    rintro b (rfl | ⟨x, l, p, hl, hp, rfl⟩ | ⟨i, -, hb⟩)
    · exact h.sized
    · exact (h.parked x l hl p hp).1
    · exact NodeInput.blocks_sized hb
  noCollision := hc

theorem Start.root_mem (h : Start ck e0 root s0) {inputs : List NodeInput}
    (hc : NoCollision (blocksSeen root e0 inputs)) : root ∈ (h.universe inputs hc).blocks := Or.inl rfl

theorem Start.input_mem (h : Start ck e0 root s0) {inputs : List NodeInput}
    (hc : NoCollision (blocksSeen root e0 inputs)) {i : NodeInput} (hi : i ∈ inputs) {b : Block} (hb : b ∈ i.blocks) :
    b ∈ (h.universe inputs hc).blocks := Or.inr (Or.inr ⟨i, hi, hb⟩)

theorem Start.inv (h : Start ck e0 root s0) {inputs : List NodeInput}
    (hc : NoCollision (blocksSeen root e0 inputs)) : LedgerInv ck (h.universe inputs hc) root s0 e0 [] :=
  ⟨h.tree _, fun x l hl p hp => ⟨.inr (.inl ⟨x, l, p, hl, hp, rfl⟩), (h.parked x l hl p hp).2⟩, by simp⟩

end Start

/-! ### Steps -/

/-- a run all of whose imports met `C` -/
inductive GuardedRun (C : NodeEngine → Block → Prop) (ck : OverflowChecks) (root : Block) (s0 : State)
    (e0 : NodeEngine) : NodeEngine → List NodeAction → List NodeInput → Prop
  | start : GuardedRun C ck root s0 e0 e0 [] []
  | step {e e' : NodeEngine} {log acts : List NodeAction} {inputs : List NodeInput} {input : NodeInput}
      (prev : GuardedRun C ck root s0 e0 e log inputs) (truthful : Truthful root s0 log input)
      (meets : e.StepMeets C ck input) (step : e.step ck input = .ok (e', acts)) :
      GuardedRun C ck root s0 e0 e' (log ++ acts) (inputs ++ [input])

theorem GuardedRun.run {C : NodeEngine → Block → Prop} {ck : OverflowChecks} {root : Block} {s0 : State}
    {e0 e : NodeEngine} {log : List NodeAction} {inputs : List NodeInput}
    (h : GuardedRun C ck root s0 e0 e log inputs) : Run ck root s0 e0 e log inputs := by
  induction h with
  | start => exact .start
  | step _ htruth _ hstep ih => exact .step ih htruth hstep

/-- the run on the given inputs, if every step returns, every reply is truthful and every import meets `C` -/
def runOn (C : NodeEngine → Block → Prop) [∀ e b, Decidable (C e b)] (ck : OverflowChecks) (root : Block) (s0 : State) :
    NodeEngine → List NodeAction → List NodeInput → Option (NodeEngine × List NodeAction)
  | e, log, [] => some (e, log)
  | e, log, input :: inputs =>
    if truthful? root s0 log input = true ∧ e.StepMeets C ck input then
      match e.step ck input with
      | .ok (e', acts) => runOn C ck root s0 e' (log ++ acts) inputs
      | .error _ => none
    else none

theorem GuardedRun.of_runOn {C : NodeEngine → Block → Prop} [∀ e b, Decidable (C e b)] {ck : OverflowChecks}
    {root : Block} {s0 : State} (hfits : s0.Fits) {e0 e : NodeEngine} {log : List NodeAction} {done : List NodeInput}
    (hprev : GuardedRun C ck root s0 e0 e log done) {inputs : List NodeInput} {r : NodeEngine × List NodeAction}
    (h : runOn C ck root s0 e log inputs = some r) : GuardedRun C ck root s0 e0 r.1 r.2 (done ++ inputs) := by
  induction inputs generalizing e log done with
  | nil =>
    cases h
    rw [List.append_nil]
    exact hprev
  | cons input inputs ih =>
    rw [runOn] at h
    split_ifs at h with hok
    split at h
    · rename_i e' acts hstep
      have hnext := ih (.step hprev (truthful_of_check hfits hok.1) hok.2 hstep) h
      rwa [List.append_assoc] at hnext
    · cases h

theorem Run.guarded {C : NodeEngine → Block → Prop} (hC : ∀ e b, C e b) {ck : OverflowChecks} {root : Block} {s0 : State}
    {e0 e : NodeEngine} {log : List NodeAction} {inputs : List NodeInput} (h : Run ck root s0 e0 e log inputs) :
    GuardedRun C ck root s0 e0 e log inputs := by
  induction h with
  | start => exact .start
  | step _ htruth hstep ih => exact .step ih htruth (NodeEngine.stepMeets_of_forall hC _ _) hstep

section Truthful

variable {ck : OverflowChecks} {U : BlockUniverse} {root : Block} {s0 : State} {C : NodeEngine → Block → Prop}
  {F : Fault → Prop} {I : NodeEngine → List NodeAction → Prop}
  (R : NodeEngine.EngineRule ck C (· ∈ U.blocks) (StateAt ck U root s0) F (fun _ => I) fun _ _ => I)
  (hledger : ∀ e log, I e log → LedgerInv ck U root s0 e log) (hF : ∀ f, Fault.Arithmetic f → F f) (hfits : s0.Fits)
include R hledger hF hfits

/-- with a truthful storage, an invariant on top of the ledger's is kept by a step -/
theorem truthful_step {e : NodeEngine} {log : List NodeAction} {input : NodeInput} (hI : I e log)
    (hseen : ∀ b ∈ input.blocks, b ∈ U.blocks) (htruth : Truthful root s0 log input) (hC : e.StepMeets C ck input) :
    Safe F (fun r => I r.1 (log ++ r.2)) (e.step ck input) := by
  refine R.step_of_handle (l := []) log ?_
  by_cases hload : ∃ h bytes, input = .storageLoaded h bytes
  · obtain ⟨h, bytes, rfl⟩ := hload
    refine R.loaded (l := []) log (fun _ => hI) (fun _ => hI) (fun b s hb hs => ⟨hI, ?_⟩) (fun _ _ _ _ => hI)
      (fun b f _ hf => ?_) hC
    · subst hb
      rcases htruth with hlog | ⟨rfl, hdec⟩
      · obtain ⟨s', hs', rfl⟩ := (hledger e log hI).snapshots h b hlog
        obtain ⟨x, hx, -⟩ := id hs'
        have hround := fromBytes_toBytes (hx.fits hfits) []
        rw [List.append_nil, hs] at hround
        cases hround
        exact hs'
      · rw [hdec] at hs
        cases hs
        exact ⟨root, .root, rfl⟩
    · have hsafe := fromBytes_safe b
      rw [hf] at hsafe
      exact hF f hsafe
  · push Not at hload
    exact R.handle (l := []) log hI hseen hC hload

theorem truthful_run {e0 e : NodeEngine} {log : List NodeAction} {inputs : List NodeInput} (h0 : I e0 [])
    (hrun : GuardedRun C ck root s0 e0 e log inputs) (hseen : ∀ i ∈ inputs, ∀ b ∈ i.blocks, b ∈ U.blocks) :
    I e log := by
  induction hrun with
  | start => exact h0
  | step _ htruth hmeets hstep ih =>
    have hI := ih fun i hi => hseen i (List.mem_append_left _ hi)
    have hsafe := truthful_step R hledger hF hfits hI (hseen _ (List.mem_append_right _ List.mem_cons_self)) htruth hmeets
    rw [hstep] at hsafe
    exact hsafe

end Truthful

/-- the invariant along a run -/
theorem Start.run_inv {ck : OverflowChecks} {root : Block} {s0 : State} {e0 e : NodeEngine} {log : List NodeAction}
    {inputs inputs' : List NodeInput} (hstart : Start ck e0 root s0) (hrun : Run ck root s0 e0 e log inputs)
    (hsub : ∀ i ∈ inputs, i ∈ inputs') (hc : NoCollision (blocksSeen root e0 inputs')) :
    LedgerInv ck (hstart.universe inputs' hc) root s0 e log :=
  truthful_run (ledgerRule ck s0 (hstart.root_mem hc)) (fun _ _ h => h) arithmetic_ne_missingHead hstart.fits (hstart.inv hc)
    (hrun.guarded fun _ _ => trivial) fun i hi _ hb => hstart.input_mem hc (hsub i hi) hb

/-- **Ledger integrity.** After every step of every run from a new engine or an accepted snapshot, with a truthful
storage and no SHA-256 collision among the blocks seen: the head is stored under its hash, every stored block but the
root was accepted on its stored parent with the replayed state of the path to it, the state is the replay of the path to
the head, and the head is the maximum under (height, slot, hash). No further step panics for a missing head. -/
theorem ledger_integrity (ck : OverflowChecks) (root : Block) (s0 : State) (e0 e : NodeEngine) (log : List NodeAction)
    (inputs : List NodeInput) (hstart : Start ck e0 root s0) (hrun : Run ck root s0 e0 e log inputs)
    (hc : NoCollision (blocksSeen root e0 inputs)) :
    Integrity ck root s0 e.blockchain ∧
      ∀ input, Truthful root s0 log input → NoCollision (blocksSeen root e0 (inputs ++ [input])) →
        e.step ck input ≠ .error .missingHead := by
  have hI := hstart.run_inv hrun (fun i hi => hi) hc
  refine ⟨hI.tree.integrity (hstart.root_mem hc), fun input htruth hc' hpanic => ?_⟩
  have hI' := hstart.run_inv hrun (fun i hi => List.mem_append_left _ hi) hc'
  have hsafe := truthful_step (ledgerRule ck s0 (hstart.root_mem hc')) (fun _ _ h => h) arithmetic_ne_missingHead hstart.fits
    hI' (fun b hb => hstart.input_mem hc' (List.mem_append_right _ List.mem_cons_self) hb) htruth
    (NodeEngine.stepMeets_of_forall (fun _ _ => trivial) e input)
  rw [hpanic] at hsafe
  exact hsafe rfl

end Ledger

section Witness

open Sample

/-- `m₁` becomes head; `f₁`, on the same parent, is parked, taken up with the root's state, and wins by its slot -/
def reorgInputs : List NodeInput :=
  [announce peer m₁, announce peer f₁, .storageLoaded genesis.hash (some State.new.toBytes)]

def reorg : NodeEngine × List NodeAction :=
  (runOn (fun _ _ => True) .debug genesis State.new (.new .new) [] reorgInputs).get (by decide +kernel)

theorem reorg_run : Run .debug genesis State.new (.new .new) reorg.1 reorg.2 reorgInputs :=
  (GuardedRun.of_runOn State.new_fits .start (Option.some_get _).symm).run

theorem reorg_noCollision : NoCollision (blocksSeen genesis (.new .new) reorgInputs) :=
  noCollision_of_list (by decide +kernel)

theorem ledger_integrity_of_reorg :
    reorg.1.blockchain.headHash = f₁.hash ∧ Integrity .debug genesis State.new reorg.1.blockchain :=
  ⟨by decide +kernel, (ledger_integrity .debug genesis State.new (.new .new) reorg.1 reorg.2 reorgInputs .new reorg_run
    reorg_noCollision).1⟩

end Witness

end RustProof
