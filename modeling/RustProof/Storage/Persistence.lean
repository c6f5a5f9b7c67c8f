/-
What storage holds of a run of the engine.

The engine's log, seen by storage, is a list of imports: for every import the block, its snapshot, the pointer
(`importWrites`), in this order and nothing else (`PersistInv`). The view of the store after any number of key writes
follows from this list alone.

Results, for both backends and every run with a truthful storage:
- `crash_consistency`: after every prefix of the key writes, a start finds nothing (and no `save_snapshot` had completed)
  or a block the engine imported with the encoding of its post-state, which `restore_latest_snapshot` accepts;
- `restart_resumes_head`: if every imported block won the fork choice, or was the head already, a restart finds the head
  and its state; `restart_misses_head`: without that it can find a side block;
- `snapshot_retrievable_iff`: from an empty store, every block of the chain has its snapshot, except the genesis block.
-/
import RustProof.Node.Ledger
import RustProof.Storage.Sled
import RustProof.Storage.Nvs

namespace RustProof

inductive StorageKind where
  | sled
  | nvs
deriving DecidableEq, Repr

section Persistence

variable [Crypto]

def StorageKind.backend : StorageKind → Backend
  | .sled => sledBackend
  | .nvs => nvsBackend

/-! ## The imports of a log -/

/-- the key writes of one import -/
def importWrites (x : Block × State) : List KeyWrite :=
  [.block x.1.hash x.1.toPostcard, .snapshot x.1.hash x.2.toBytes, .latest x.1.hash]

/-- the block takes over as head, or is the head -/
def WinsForkChoice (e : NodeEngine) (b : Block) : Prop :=
  ∀ latest, e.blockchain.getLatestBlock = .ok latest →
    shouldReplaceHead b.hash b latest e.blockchain.headHash = true ∨ b.hash = e.blockchain.headHash

instance (e : NodeEngine) (b : Block) : Decidable (WinsForkChoice e b) :=
  match h : e.blockchain.getLatestBlock with
  | .error _ => isTrue fun _ hl => nomatch h.symm.trans hl
  | .ok latest =>
    decidable_of_iff (shouldReplaceHead b.hash b latest e.blockchain.headHash = true ∨ b.hash = e.blockchain.headHash)
      ⟨fun hw _ hl => Except.ok.inj (h.symm.trans hl) ▸ hw, fun hw => hw latest h⟩

structure Imports (ck : OverflowChecks) (U : BlockUniverse) (root : Block) (s0 : State) (e : NodeEngine)
    (log : List NodeAction) (imports : List (Block × State)) : Prop where
  writes : log.flatMap NodeAction.keyWrites = imports.flatMap importWrites
  derived : ∀ x ∈ imports, Derived ck U root s0 x.1 x.2
  fresh : ∀ x ∈ imports, x.1.hash ≠ root.hash
  logged : ∀ x ∈ imports, NodeAction.persistBlock x.1 ∈ log
  stored : ∀ x ∈ imports, ∃ b, e.blockchain.blockAt x.1.hash = some b
  complete : ∀ h b, e.blockchain.blockAt h = some b → h = root.hash ∨ ∃ x ∈ imports, x.1.hash = h

/-- `top` asks for more: the last import is the head -/
structure PersistInv (top : Prop) (ck : OverflowChecks) (U : BlockUniverse) (root : Block) (s0 : State)
    (e : NodeEngine) (log : List NodeAction) : Prop where
  ledger : LedgerInv ck U root s0 e log
  imports : ∃ imports, Imports ck U root s0 e log imports ∧
    (top → (imports = [] → e.blockchain.headHash = root.hash) ∧
      ∀ x, imports.getLast? = some x → x.1.hash = e.blockchain.headHash)

section Invariant

variable {ck : OverflowChecks} {U : BlockUniverse} {root : Block} {s0 : State}

theorem keyWrites_of_quiet {acts : List NodeAction} (h : ∀ a ∈ acts, a.Quiet) :
    acts.flatMap NodeAction.keyWrites = [] := by
  rw [List.flatMap_eq_nil_iff]
  intro a ha
  have hq := h a ha
  cases a with
  | persistBlock b => exact hq.elim
  | persistSnapshot x bytes => exact hq.elim
  | loadSnapshot x => exact hq.elim
  | sendFrame _ _ | broadcastFrame _ | requestBlocks _ _ _ | scheduleWake _ | cancelWake | reportEvent _
  | frameReceived _ | persistCompleted _ => rfl

/-- actions without key writes leave the imports as they are -/
theorem Imports.append {e e' : NodeEngine} {log acts : List NodeAction} {imports : List (Block × State)}
    (h : Imports ck U root s0 e log imports) (hw : acts.flatMap NodeAction.keyWrites = [])
    (hblocks : ∀ x, e'.blockchain.blockAt x = e.blockchain.blockAt x) :
    Imports ck U root s0 e' (log ++ acts) imports where
  writes := by rw [List.flatMap_append, hw, List.append_nil, h.writes]
  derived := h.derived
  fresh := h.fresh
  logged x hx := List.mem_append_left _ (h.logged x hx)
  stored x hx := by rw [hblocks]; exact h.stored x hx
  complete x b hb := by rw [hblocks] at hb; exact h.complete x b hb

/-- an import adds itself -/
theorem Imports.add {e : NodeEngine} {log : List NodeAction} {imports : List (Block × State)} {bc : Blockchain} {b : Block}
    {s : State} {imported : ImportedBlock} (h : Imports ck U root s0 e log imports)
    (hdb : Derived ck U root s0 b imported.nextState) (hne : b.hash ≠ root.hash)
    (hadd : Blockchain.Added ck e.blockchain b s bc imported) :
    Imports ck U root s0 { e with blockchain := bc }
      (log ++ [.persistBlock b, .persistSnapshot b.hash imported.nextState.toBytes])
      (imports ++ [(b, imported.nextState)]) where
  writes := by
    rw [List.flatMap_append, List.flatMap_append, h.writes]
    rfl
  derived x hx := by
    rcases List.mem_append.1 hx with hx | hx
    · exact h.derived x hx
    · rw [List.mem_singleton.1 hx]
      exact hdb
  fresh x hx := by
    rcases List.mem_append.1 hx with hx | hx
    · exact h.fresh x hx
    · rw [List.mem_singleton.1 hx]
      exact hne
  logged x hx := by
    rcases List.mem_append.1 hx with hx | hx
    · exact List.mem_append_left _ (h.logged x hx)
    · rw [List.mem_singleton.1 hx]
      exact List.mem_append_right _ List.mem_cons_self
  stored x hx := by
    simp only [hadd.blocks]
    rcases List.mem_append.1 hx with hx | hx
    · obtain ⟨y, hy⟩ := h.stored x hx
      exact ⟨y, Blockchain.blockAfter_of_some b hy⟩
    · rw [List.mem_singleton.1 hx, Blockchain.blockAfter, if_pos rfl]
      exact ⟨_, rfl⟩
  complete x y hy := by
    simp only [hadd.blocks] at hy
    rcases Blockchain.blockAfter_cases hy with hold | ⟨-, rfl, -⟩
    · rcases h.complete x y hold with rfl | ⟨z, hz, rfl⟩
      · exact .inl rfl
      · exact .inr ⟨z, List.mem_append_left _ hz, rfl⟩
    · exact .inr ⟨_, List.mem_append_right _ List.mem_cons_self, rfl⟩

/-- every part of a step keeps the list of imports -/
theorem persistRule (top : Prop) (hroot : root ∈ U.blocks) :
    NodeEngine.EngineRule ck (fun e b => top → WinsForkChoice e b) (· ∈ U.blocks) (StateAt ck U root s0)
      (· ≠ .missingHead) (fun _ => PersistInv top ck U root s0) (fun _ _ => PersistInv top ck U root s0) := by
  have L := ledgerRule ck s0 hroot
  exact {
    quiet := by
      intro l e e' log acts hI hsame hq
      obtain ⟨imports, himp, htop⟩ := hI.imports
      refine ⟨L.quiet (l := l) hI.ledger hsame hq, imports, himp.append (keyWrites_of_quiet hq) fun x => ?_, ?_⟩
      · rw [Blockchain.blockAt, hsame.chain]
        rfl
      · rw [hsame.head]
        exact htop
    note := by
      intro l e log m hI
      obtain ⟨imports, himp, htop⟩ := hI.imports
      exact ⟨L.note (l := l) hI.ledger, imports, himp.append rfl fun x => rfl, htop⟩
    report := by
      intro h l e log m hI
      obtain ⟨imports, himp, htop⟩ := hI.imports
      exact ⟨L.report (h := h) (l := l) hI.ledger, imports, himp.append rfl fun x => rfl, htop⟩
    park := by
      intro l e log peer b hI hb hhead
      obtain ⟨imports, himp, htop⟩ := hI.imports
      exact ⟨L.park (l := l) hI.ledger hb hhead, imports, himp.append rfl fun x => rfl, htop⟩
    direct := fun hI _ _ => hI
    head := fun hI => L.head (l := []) hI.ledger
    skip := fun hI _ => hI
    take := by
      intro h l e log parked hI hp
      obtain ⟨imports, himp, htop⟩ := hI.imports
      obtain ⟨hledger, hparked⟩ := L.take (l := l) hI.ledger hp
      have himp' : Imports ck U root s0 { e with pendingBlocks := e.pendingBlocks.remove h } (log ++ []) imports :=
        himp.append rfl fun x => rfl
      rw [List.append_nil] at himp'
      exact ⟨⟨hledger, imports, himp', htop⟩, hparked⟩
    add := by
      intro l e log b s bc imported hI hb hs hwins hadd
      obtain ⟨imports, himp, htop⟩ := hI.imports
      obtain ⟨hknown, hledger, -⟩ := L.add (l := l) hI.ledger hb hs trivial hadd
      have hadded := Blockchain.addBlock_ok hadd
      have hdb := hI.ledger.tree.derived_of_added hroot hb hs hadded
      obtain ⟨p, hp, hacc⟩ := hadded.accepted
      obtain ⟨t, hdp⟩ := hI.ledger.tree.derived _ _ hp
      have hne := Derived.child_hash_ne hroot hdp hb hacc.slot
      have hI' : PersistInv top ck U root s0 { e with blockchain := bc }
          (log ++ [.persistBlock b, .persistSnapshot b.hash imported.nextState.toBytes]) := by
        refine ⟨hledger, _, himp.add hdb hne hadded, fun ht => ⟨fun hnil => by simp at hnil, fun x hx => ?_⟩⟩
        rw [List.getLast?_append, List.getLast?_singleton, Option.some_or] at hx
        cases hx
        -- the block just imported is the head: it won, or it was the head before
        obtain ⟨head, hhead, -⟩ := hI.ledger.tree.head
        obtain ⟨latest, hlatest, hchoice⟩ := hadded.choice
        rw [Blockchain.blockAfter_of_some b hhead] at hlatest
        cases hlatest
        simp only [hadded.head]
        rcases hwins ht head (Blockchain.getLatestBlock_ok_iff.2 hhead) with hw | hw
        · rw [hchoice, hw, if_pos rfl]
        · rw [← hw]
          split_ifs <;> rfl
      exact ⟨hknown, hI', fun _ => hI'⟩
    refuse := by
      intro l e log b s err m hI hb hs hadd
      obtain ⟨imports, himp, htop⟩ := hI.imports
      exact ⟨L.refuse (l := l) hI.ledger hb hs hadd, imports, himp.append rfl fun x => rfl, htop⟩
    addFault := fun hI => L.addFault (l := []) hI.ledger
    latestFault := fun hI => L.latestFault (l := []) hI.ledger
    serveFault := fun hI => L.serveFault (l := []) hI.ledger }

end Invariant

/-! ## What a start finds -/

/-- nothing, or a block and its snapshot with `Q` -/
def Holds (Q : Block → List UInt8 → Prop) (v : View) : Prop :=
  v.latest = none ∨ ∃ b bytes, v.latest = some b.hash.bytes ∧
    (∃ blockBytes, v.blocks b.hash = some blockBytes ∧ Block.fromPostcard blockBytes = some b) ∧
    v.snapshots b.hash = some bytes ∧ Q b bytes

section Holds

variable {Q : Block → List UInt8 → Prop} {x : Block × State} {v : View}

theorem Holds.block (hsized : x.1.Sized) (hQ : ∀ b bytes, Q b bytes → x.1.hash = b.hash → Q x.1 bytes)
    (h : Holds Q v) : Holds Q (v.apply (.block x.1.hash x.1.toPostcard)) := by
  rcases h with h | ⟨b, bytes, hl, ⟨bb, hb, hdec⟩, hs, hq⟩
  · exact .inl h
  · by_cases hh : x.1.hash = b.hash
    · refine .inr ⟨x.1, bytes, by rw [hh]; exact hl, ⟨x.1.toPostcard, ?_, Block.fromPostcard_toPostcard hsized⟩, ?_,
        hQ b bytes hq hh⟩
      · simp [View.apply]
      · rw [hh]
        exact hs
    · refine .inr ⟨b, bytes, hl, ⟨bb, ?_, hdec⟩, hs, hq⟩
      simp only [View.apply, Function.update_apply, if_neg (Ne.symm hh)]
      exact hb

theorem Holds.snapshot (hQ : ∀ b bytes, Q b bytes → x.1.hash = b.hash → Q b x.2.toBytes) (h : Holds Q v) :
    Holds Q (v.apply (.snapshot x.1.hash x.2.toBytes)) := by
  rcases h with h | ⟨b, bytes, hl, hb, hs, hq⟩
  · exact .inl h
  · by_cases hh : x.1.hash = b.hash
    · refine .inr ⟨b, x.2.toBytes, hl, hb, ?_, hQ b bytes hq hh⟩
      simp [View.apply, hh]
    · refine .inr ⟨b, bytes, hl, hb, ?_, hq⟩
      simp only [View.apply, Function.update_apply, if_neg (Ne.symm hh)]
      exact hs

/-- a whole import points at its own block -/
theorem Holds.import (hsized : x.1.Sized) (hQ : Q x.1 x.2.toBytes) : Holds Q (v.applyAll (importWrites x)) :=
  .inr ⟨x.1, x.2.toBytes, rfl, ⟨x.1.toPostcard, by simp [importWrites, View.applyAll, View.apply],
    Block.fromPostcard_toPostcard hsized⟩, by simp [importWrites, View.applyAll, View.apply], hQ⟩

/-- whatever number of key writes of a list of imports has been made -/
theorem Holds.crash {imports : List (Block × State)} (n : ℕ) (h : Holds Q v) (hsized : ∀ x ∈ imports, x.1.Sized)
    (hblock : ∀ x ∈ imports, ∀ b bytes, Q b bytes → x.1.hash = b.hash → Q x.1 bytes)
    (hsnap : ∀ x ∈ imports, ∀ b bytes, Q b bytes → x.1.hash = b.hash → Q b x.2.toBytes)
    (hown : ∀ x ∈ imports, Q x.1 x.2.toBytes) :
    Holds Q (v.applyAll ((imports.flatMap importWrites).take n)) := by
  induction imports generalizing v n with
  | nil => simpa [View.applyAll] using h
  | cons x imports ih =>
    have hx := List.mem_cons_self (a := x) (l := imports)
    rw [List.flatMap_cons]
    rcases n with _ | _ | _ | n
    · exact h
    · exact h.block (hsized x hx) (hblock x hx)
    · exact (h.block (hsized x hx) (hblock x hx)).snapshot (hsnap x hx)
    · have hsplit : (importWrites x ++ imports.flatMap importWrites).take (n + 1 + 1 + 1) =
          importWrites x ++ (imports.flatMap importWrites).take n := by
        simp [importWrites]
      rw [hsplit, View.applyAll_append]
      exact ih n (Holds.import (hsized x hx) (hown x hx)) (fun y hy => hsized y (List.mem_cons_of_mem _ hy))
        (fun y hy => hblock y (List.mem_cons_of_mem _ hy)) (fun y hy => hsnap y (List.mem_cons_of_mem _ hy))
        (fun y hy => hown y (List.mem_cons_of_mem _ hy))

end Holds

/-- snapshots of other hashes stay -/
theorem snapshots_of_ne {imports : List (Block × State)} {h : Hash} (v : View) (hne : ∀ x ∈ imports, x.1.hash ≠ h) :
    (v.applyAll (imports.flatMap importWrites)).snapshots h = v.snapshots h := by
  induction imports generalizing v with
  | nil => rfl
  | cons x imports ih =>
    rw [List.flatMap_cons, View.applyAll_append, ih _ fun y hy => hne y (List.mem_cons_of_mem _ hy)]
    simp only [importWrites, View.applyAll, List.foldl_cons, List.foldl_nil, View.apply, Function.update_apply,
      if_neg (hne x List.mem_cons_self).symm]

/-- the snapshot of an imported hash, when all imports of that hash agree on it -/
theorem snapshots_of_mem {imports : List (Block × State)} {h : Hash} {bytes : List UInt8} (v : View)
    (hall : ∀ x ∈ imports, x.1.hash = h → x.2.toBytes = bytes)
    (hsome : v.snapshots h = some bytes ∨ ∃ x ∈ imports, x.1.hash = h) :
    (v.applyAll (imports.flatMap importWrites)).snapshots h = some bytes := by
  induction imports generalizing v with
  | nil =>
    rcases hsome with hv | ⟨x, hx, -⟩
    · exact hv
    · cases hx
  | cons x imports ih =>
    rw [List.flatMap_cons, View.applyAll_append]
    refine ih _ (fun y hy => hall y (List.mem_cons_of_mem _ hy)) ?_
    simp only [importWrites, View.applyAll, List.foldl_cons, List.foldl_nil, View.apply, Function.update_apply]
    by_cases hx : x.1.hash = h
    · exact .inl (by rw [if_pos hx.symm, hall x List.mem_cons_self hx])
    · rw [if_neg (Ne.symm hx)]
      rcases hsome with hv | ⟨y, hy, hyh⟩
      · exact .inl hv
      · rcases List.mem_cons.1 hy with rfl | hy
        · exact absurd hyh hx
        · exact .inr ⟨y, hy, hyh⟩

/-! ## Restoring what a start found -/

/-- a store a run can start on: nothing to restore, or the run's root with its state -/
def Opens (B : Backend) (σ : B.Store) (root : Block) (s0 : State) : Prop :=
  B.latest σ = none ∨ ∃ bytes, B.loadLatestSnapshotBundle σ = .ok (some (root, bytes)) ∧
    State.fromBytes bytes = .ok (.ok s0)

/-- what is good about a block and its snapshot: `s` is the post-state of `b`, replayed along the stored path, `bytes` are
its encoding, and every engine restores exactly `b` and `s` from them -/
structure Restores (ck : OverflowChecks) (root : Block) (s0 : State) (e : NodeEngine) (b : Block) (bytes : List UInt8)
    (s : State) : Prop where
  path : ∃ path, Path e.blockchain root path b.hash ∧ replay ck root s0 path = .ok (.ok s)
  accepted : ∀ fresh : NodeEngine, fresh.restoreLatestSnapshot (some b) (some bytes) =
    .ok ({ fresh with blockchain := .restoreHead b s }, [.reportEvent "startup snapshot restored"])

/-- the block was imported by the run, with `bytes` the encoding of `s`; or it is what the store held at the start -/
def ImportedOrRoot (B : Backend) (σ₀ : B.Store) (log : List NodeAction) (b : Block) (bytes : List UInt8) (s : State) :
    Prop :=
  NodeAction.persistBlock b ∈ log ∧ bytes = s.toBytes ∨ B.loadLatestSnapshotBundle σ₀ = .ok (some (b, bytes))

section Found

variable {ck : OverflowChecks} {U : BlockUniverse} {root : Block} {s0 : State} {e : NodeEngine} {log : List NodeAction}
  {imports : List (Block × State)} {B : Backend} {σ₀ : B.Store}

/-- the root of an accepted block's state is the announced one -/
theorem Derived.stateRoot {b : Block} {s : State} (h : Derived ck U root s0 b s)
    (hroot : root.stateRoot = s0.computeStateRoot) : b.stateRoot = s.computeStateRoot := by
  cases h with
  | root => exact hroot
  | child _ _ _ hacc => exact hacc.root

/-- what is known of the block a start finds -/
structure GoodFind (ck : OverflowChecks) (U : BlockUniverse) (root : Block) (s0 : State) (e : NodeEngine)
    (log : List NodeAction) (B : Backend) (σ₀ : B.Store) (b : Block) (bytes : List UInt8) : Prop where
  stored : ∃ y, e.blockchain.blockAt b.hash = some y
  state : ∃ s, StateAt ck U root s0 b.hash s ∧ State.fromBytes bytes = .ok (.ok s) ∧
    b.stateRoot = s.computeStateRoot ∧ ImportedOrRoot B σ₀ log b bytes s
  root : NodeAction.persistBlock b ∈ log ∨ b = root

theorem Imports.goodFind (B : Backend) (σ₀ : B.Store) (hfits : s0.Fits) (hsr : root.stateRoot = s0.computeStateRoot)
    (himp : Imports ck U root s0 e log imports) {x : Block × State} (hx : x ∈ imports) :
    GoodFind ck U root s0 e log B σ₀ x.1 x.2.toBytes := by
  have hd := himp.derived x hx
  have hround := fromBytes_toBytes (hd.fits hfits) []
  rw [List.append_nil] at hround
  exact ⟨himp.stored x hx, ⟨x.2, ⟨x.1, hd, rfl⟩, hround, hd.stateRoot hsr, .inl ⟨himp.logged x hx, rfl⟩⟩,
    .inl (himp.logged x hx)⟩

/-- a store that a run starts on, after any number of the run's key writes -/
theorem PersistInv.holds {top : Prop} (hroot : root ∈ U.blocks) (hfits : s0.Fits)
    (hsr : root.stateRoot = s0.computeStateRoot) (hI : PersistInv top ck U root s0 e log) (hopen : Opens B σ₀ root s0)
    (n : ℕ) : Holds (GoodFind ck U root s0 e log B σ₀)
      ((B.view σ₀).applyAll ((log.flatMap NodeAction.keyWrites).take n)) := by
  obtain ⟨imports, himp, -⟩ := hI.imports
  have hgood := fun x hx => himp.goodFind B σ₀ hfits hsr (x := x) hx
  -- a hash that is imported has one state
  have hstate : ∀ x ∈ imports, ∀ b bytes, GoodFind ck U root s0 e log B σ₀ b bytes → x.1.hash = b.hash →
      bytes = x.2.toBytes := by
    intro x hx b bytes hq hh
    obtain ⟨s, hs, -, -, horigin⟩ := hq.state
    have hxs : x.2 = s := StateAt.functional hroot ⟨x.1, himp.derived x hx, hh⟩ hs
    have hlog : NodeAction.persistBlock b ∈ log ∧ bytes = s.toBytes := by
      rcases horigin with h | h
      · exact h
      · rcases hopen with hnone | ⟨bytes0, hb, -⟩
        · rw [B.bundle_none hnone] at h; cases h
        · rw [hb] at h
          cases h
          exact absurd hh (himp.fresh x hx)
    rw [hlog.2, hxs]
  rw [himp.writes]
  refine Holds.crash n ?_ (fun x hx => U.sized _ ((himp.derived x hx).mem hroot)) (fun x hx b bytes hq hh => ?_)
    (fun x hx b bytes hq hh => ?_) hgood
  · rcases hopen with hnone | ⟨bytes, hb, hdec⟩
    · exact .inl hnone
    · obtain ⟨h1, h2, h3⟩ := B.bundle_some.1 hb
      exact .inr ⟨root, bytes, h1, h2, h3, ⟨root, hI.ledger.tree.rootStored⟩,
        ⟨s0, ⟨root, .root, rfl⟩, hdec, hsr, .inr hb⟩, .inr rfl⟩
  · rw [hstate x hx b bytes hq hh]
    exact hgood x hx
  · rw [← hstate x hx b bytes hq hh]
    exact hq

theorem GoodFind.restores (hroot : root ∈ U.blocks) (T : TreeInv ck U root s0 e.blockchain) {b : Block}
    {bytes : List UInt8} (h : GoodFind ck U root s0 e log B σ₀ b bytes) :
    ∃ s, StateAt ck U root s0 b.hash s ∧ Restores ck root s0 e b bytes s ∧ ImportedOrRoot B σ₀ log b bytes s := by
  obtain ⟨s, ⟨d, hd, hdh⟩, hdec, hsr, horigin⟩ := h.state
  obtain ⟨y, hy⟩ := h.stored
  obtain ⟨path, hpath, hreplay, -⟩ := T.path hroot hd (c := y) (by rw [hdh]; exact hy)
  rw [hdh] at hpath
  refine ⟨s, ⟨d, hd, hdh⟩, ⟨⟨path, hpath, hreplay⟩, fun fresh => ?_⟩, horigin⟩
  simp only [NodeEngine.restoreLatestSnapshot, hdec]
  rw [if_neg (not_not.2 hsr)]

end Found

theorem Start.stateRoot {ck : OverflowChecks} {root : Block} {s0 : State} {e0 : NodeEngine} (h : Start ck e0 root s0) :
    root.stateRoot = s0.computeStateRoot := by
  cases h with
  | new => rfl
  | restored _ _ hdec hacc => exact (restore_accepted hdec hacc).1

/-- the list of imports along a run -/
theorem Start.persist_inv (top : Prop) {ck : OverflowChecks} {root : Block} {s0 : State} {e0 e : NodeEngine}
    {log : List NodeAction} {inputs : List NodeInput} (hstart : Start ck e0 root s0)
    (hrun : GuardedRun (fun e b => top → WinsForkChoice e b) ck root s0 e0 e log inputs)
    (hc : NoCollision (blocksSeen root e0 inputs)) : PersistInv top ck (hstart.universe inputs hc) root s0 e log := by
  refine truthful_run (persistRule top (hstart.root_mem hc)) (fun _ _ h => h.ledger) arithmetic_ne_missingHead hstart.fits
    ⟨hstart.inv hc, [], ⟨rfl, by simp, by simp, by simp, by simp, fun h b hb => .inl ?_⟩, fun _ => ⟨fun _ => ?_, by simp⟩⟩
    hrun fun i hi _ hb => hstart.input_mem hc hi hb
  · exact hstart.blockAt_start hb
  · exact hstart.chain.2.1

/-- **Crash consistency.** Take any run from a start on its store, and any prefix `ws` of the key writes of its log. A
start on what survived finds nothing, and then the store had no pointer at the start and no `save_snapshot` had completed; or
it finds the block of the pointer, imported by the run (or the one the store held at the start), with the encoding of that
block's post-state, from which every engine restores exactly this block and this state. -/
theorem crash_consistency (kind : StorageKind) (ck : OverflowChecks) (root : Block) (s0 : State) (e0 e : NodeEngine)
    (log : List NodeAction) (inputs : List NodeInput) (σ₀ : kind.backend.Store) (ws : List kind.backend.Write)
    (hstart : Start ck e0 root s0) (hrun : Run ck root s0 e0 e log inputs)
    (hc : NoCollision (blocksSeen root e0 inputs)) (hopen : Opens kind.backend σ₀ root s0)
    (hws : ws <+: kind.backend.writes σ₀ log) :
    (kind.backend.loadLatestSnapshotBundle (kind.backend.applyAll σ₀ ws) = .ok none ∧
      kind.backend.latest σ₀ = none ∧ ¬ kind.backend.SnapshotSaved σ₀ log ws.length) ∨
    ∃ b bytes s, kind.backend.loadLatestSnapshotBundle (kind.backend.applyAll σ₀ ws) = .ok (some (b, bytes)) ∧
      kind.backend.latest (kind.backend.applyAll σ₀ ws) = some b.hash.bytes ∧
      ImportedOrRoot kind.backend σ₀ log b bytes s ∧ Restores ck root s0 e b bytes s := by
  have hI := hstart.persist_inv False (hrun.guarded fun _ _ h => h.elim) hc
  have hview := (Backend.crash_view hws).2
  have hholds := hI.holds (hstart.root_mem hc) hstart.fits hstart.stateRoot hopen ws.length
  rw [← hview] at hholds
  rcases hholds with hnone | ⟨b, bytes, hlatest, hblock, hsnap, hgood⟩
  · refine .inl ⟨kind.backend.bundle_none hnone, ?_, fun hsaved => hsaved.latest hws hnone⟩
    by_contra hsome
    rw [hview] at hnone
    exact View.latest_kept (v := kind.backend.view σ₀) hsome _ hnone
  · obtain ⟨s, -, hrestores, horigin⟩ := hgood.restores (hstart.root_mem hc) hI.ledger.tree
    exact .inr ⟨b, bytes, s, kind.backend.bundle_some.2 ⟨hlatest, hblock, hsnap⟩, hlatest, horigin, hrestores⟩

end Persistence

section CrashWitness

open Sample

/-- a start finds a block with this hash -/
def Backend.findsHash [Crypto] (B : Backend) (σ : B.Store) (h : Hash) : Bool :=
  match B.loadLatestSnapshotBundle σ with
  | .ok (some (b, _)) => decide (b.hash = h)
  | _ => false

theorem Backend.bundle_of_findsHash [Crypto] {B : Backend} {σ : B.Store} {h : Hash} (hf : B.findsHash σ h = true) :
    ∃ b bytes, B.loadLatestSnapshotBundle σ = .ok (some (b, bytes)) ∧ b.hash = h := by
  unfold findsHash at hf
  split at hf
  · rename_i b bytes hb
    exact ⟨b, bytes, hb, of_decide_eq_true hf⟩
  · cases hf

/-- the block of the second import of the reorganisation is written, its snapshot is not -/
def crashed : List StorageKind.nvs.backend.Write :=
  (StorageKind.nvs.backend.writes StorageKind.nvs.backend.empty reorg.2).take 4

theorem crash_consistency_of_reorg : ∃ b bytes s,
    StorageKind.nvs.backend.loadLatestSnapshotBundle (StorageKind.nvs.backend.applyAll StorageKind.nvs.backend.empty crashed) =
      .ok (some (b, bytes)) ∧ b.hash = m₁.hash ∧ Restores .debug genesis State.new reorg.1 b bytes s := by
  have hfound : StorageKind.nvs.backend.findsHash
      (StorageKind.nvs.backend.applyAll StorageKind.nvs.backend.empty crashed) m₁.hash = true := by decide +kernel
  obtain ⟨b', bytes', hb', hh⟩ := Backend.bundle_of_findsHash hfound
  rcases crash_consistency .nvs .debug genesis State.new (.new .new) reorg.1 reorg.2 reorgInputs
      StorageKind.nvs.backend.empty crashed .new reorg_run reorg_noCollision
      (.inl StorageKind.nvs.backend.latest_empty) (List.take_prefix _ _) with ⟨hnone, -⟩ | ⟨b, bytes, s, hb, -, -, hr⟩
  · rw [hb'] at hnone
    cases hnone
  · rw [hb'] at hb
    cases hb
    exact ⟨b', bytes', s, hb', hh, hr⟩

end CrashWitness

/-! ## Restart -/

section Restart

variable [Crypto]

/-- the pointer is at the last import -/
theorem latest_of_getLast? {imports : List (Block × State)} {x : Block × State} (v : View)
    (h : imports.getLast? = some x) :
    (v.applyAll (imports.flatMap importWrites)).latest = some x.1.hash.bytes := by
  obtain ⟨init, rfl⟩ := List.getLast?_eq_some_iff.1 h
  rw [List.flatMap_append, View.applyAll_append]
  rfl

/-- a log with a persisted block has imports -/
theorem Imports.ne_nil {ck : OverflowChecks} {U : BlockUniverse} {root : Block} {s0 : State} {e : NodeEngine}
    {log : List NodeAction} {imports : List (Block × State)} (himp : Imports ck U root s0 e log imports) {b : Block}
    (hb : NodeAction.persistBlock b ∈ log) : imports ≠ [] := by
  rintro rfl
  have hnil := himp.writes
  rw [List.flatMap_nil, List.flatMap_eq_nil_iff] at hnil
  exact List.cons_ne_nil _ _ (hnil _ hb)

/-- **Restart resumes the head.** In every run all of whose imports won the fork choice, or were of the head itself: once
a block was imported and all commands were carried out, a start finds the head, and every engine restores from it the head
and the state the run has. -/
theorem restart_resumes_head (kind : StorageKind) (ck : OverflowChecks) (root : Block) (s0 : State) (e0 e : NodeEngine)
    (log : List NodeAction) (inputs : List NodeInput) (σ₀ σ : kind.backend.Store) (hstart : Start ck e0 root s0)
    (hrun : GuardedRun WinsForkChoice ck root s0 e0 e log inputs) (hc : NoCollision (blocksSeen root e0 inputs))
    (hopen : Opens kind.backend σ₀ root s0) (hexec : kind.backend.execute σ₀ log = .ok σ)
    (himported : ∃ b, NodeAction.persistBlock b ∈ log) :
    ∃ b bytes, kind.backend.loadLatestSnapshotBundle σ = .ok (some (b, bytes)) ∧ b.hash = e.blockchain.headHash ∧
      ∀ fresh : NodeEngine, fresh.restoreLatestSnapshot (some b) (some bytes) =
        .ok ({ fresh with blockchain := .restoreHead b e.blockchain.state },
          [.reportEvent "startup snapshot restored"]) := by
  have hguard : (fun e b => True → WinsForkChoice e b) = WinsForkChoice :=
    funext fun _ => funext fun _ => propext (forall_prop_of_true trivial)
  have hI := hstart.persist_inv True (by rw [hguard]; exact hrun) hc
  obtain ⟨imports, himp, htop⟩ := hI.imports
  obtain ⟨c, hc'⟩ := himported
  obtain ⟨x, hx⟩ := Option.ne_none_iff_exists'.1 (mt List.getLast?_eq_none_iff.1 (himp.ne_nil hc'))
  have hview := (Backend.execute_view hexec).1
  have hlast : kind.backend.latest σ = some x.1.hash.bytes := by
    have hptr := latest_of_getLast? (kind.backend.view σ₀) hx
    rwa [← himp.writes, ← hview] at hptr
  have hholds := hI.holds (hstart.root_mem hc) hstart.fits hstart.stateRoot hopen
    (log.flatMap NodeAction.keyWrites).length
  rw [List.take_length, ← hview] at hholds
  rcases hholds with hnone | ⟨b, bytes, hlatest, hblock, hsnap, hgood⟩
  · exact absurd (hlast.symm.trans hnone) (Option.some_ne_none _)
  · have hhead : b.hash = e.blockchain.headHash := by
      have hbytes : some b.hash.bytes = some x.1.hash.bytes := hlatest.symm.trans hlast
      rw [← (htop trivial).2 x hx]
      exact U8Array.ext_bytes (Option.some.inj hbytes)
    obtain ⟨s, hs, hrestores, -⟩ := hgood.restores (hstart.root_mem hc) hI.ledger.tree
    have hstate : s = e.blockchain.state := by
      rw [hhead] at hs
      exact hs.functional (hstart.root_mem hc) hI.ledger.tree.state
    refine ⟨b, bytes, kind.backend.bundle_some.2 ⟨hlatest, hblock, hsnap⟩, hhead, ?_⟩
    rw [← hstate]
    exact hrestores.accepted

end Restart

section RestartWitness

open Sample

/-- in the reorganisation every import wins -/
def won : NodeEngine × List NodeAction :=
  (runOn WinsForkChoice .debug genesis State.new (.new .new) [] reorgInputs).get (by decide +kernel)

theorem won_run : GuardedRun WinsForkChoice .debug genesis State.new (.new .new) won.1 won.2 reorgInputs :=
  GuardedRun.of_runOn State.new_fits .start (Option.some_get _).symm

/-- a store all of whose commands were carried out -/
theorem Backend.execute_get [Crypto] {B : Backend} {σ : B.Store} {log : List NodeAction}
    (h : (B.execute σ log).toOption.isSome = true) : B.execute σ log = .ok ((B.execute σ log).toOption.get h) := by
  generalize B.execute σ log = r at h
  cases r with
  | error f => cases h
  | ok r => rfl

def wonStore : StorageKind.sled.backend.Store :=
  (StorageKind.sled.backend.execute StorageKind.sled.backend.empty won.2).toOption.get (by decide +kernel)

theorem restart_resumes_reorg : ∃ b bytes,
    StorageKind.sled.backend.loadLatestSnapshotBundle wonStore = .ok (some (b, bytes)) ∧ b.hash = won.1.blockchain.headHash ∧
      ∀ fresh : NodeEngine, fresh.restoreLatestSnapshot (some b) (some bytes) =
        .ok ({ fresh with blockchain := .restoreHead b won.1.blockchain.state },
          [.reportEvent "startup snapshot restored"]) := by
  have himported : ∃ b, NodeAction.persistBlock b ∈ won.2 := by
    have hany : won.2.any NodeAction.isPersistBlock = true := by decide +kernel
    obtain ⟨a, ha, hmatch⟩ := List.any_eq_true.1 hany
    unfold NodeAction.isPersistBlock at hmatch
    split at hmatch
    · exact ⟨_, ha⟩
    · cases hmatch
  exact restart_resumes_head .sled .debug genesis State.new (.new .new) won.1 won.2 reorgInputs
    StorageKind.sled.backend.empty wonStore .new won_run reorg_noCollision
    (.inl StorageKind.sled.backend.latest_empty) (Backend.execute_get _) himported

/-! The other way round: `n₂` is the head, then `m₂` arrives for `m₁` and is imported from the parked blocks. It loses the
fork choice, and the pointer moves to it all the same. -/

def missedInputs : List NodeInput :=
  [announce peer m₁, announce peer n₂, announce peer m₂, .storageLoaded m₁.hash (some State.new.toBytes)]

def missed : NodeEngine × List NodeAction :=
  (runOn (fun _ _ => True) .debug genesis State.new (.new .new) [] missedInputs).get (by decide +kernel)

def missedStore (kind : StorageKind) : kind.backend.Store :=
  (kind.backend.execute kind.backend.empty missed.2).toOption.get (by cases kind <;> decide +kernel)

theorem restart_misses_head :
    (Run .debug genesis State.new (.new .new) missed.1 missed.2 missedInputs ∧
      NoCollision (blocksSeen genesis (.new .new) missedInputs)) ∧
    (∀ kind : StorageKind, kind.backend.execute kind.backend.empty missed.2 = .ok (missedStore kind) ∧
      ∃ b bytes, kind.backend.loadLatestSnapshotBundle (missedStore kind) = .ok (some (b, bytes)) ∧ b.hash = m₂.hash) ∧
    missed.1.blockchain.headHash = n₂.hash ∧ m₂.hash ≠ n₂.hash :=
  ⟨⟨(GuardedRun.of_runOn State.new_fits .start (Option.some_get _).symm).run, noCollision_of_list (by decide +kernel)⟩,
    fun kind => ⟨Backend.execute_get _, Backend.bundle_of_findsHash (by cases kind <;> decide +kernel)⟩,
    by decide +kernel, by decide +kernel⟩

end RestartWitness

/-! ## Snapshots of the chain -/

section Retrievable

variable [Crypto]

/-- storage returns the encoding of the replayed state of `h` -/
def Retrievable (B : Backend) (ck : OverflowChecks) (root : Block) (s0 : State) (e : NodeEngine) (σ : B.Store) (h : Hash) :
    Prop :=
  ∃ path s, Path e.blockchain root path h ∧ replay ck root s0 path = .ok (.ok s) ∧
    B.loadSnapshot σ h = .ok (some s.toBytes)

/-- **Snapshots of the chain.** In every run from the genesis block on an empty store, once all commands were carried out,
the snapshot of a block of the chain can be retrieved exactly when the block is not the genesis block. -/
theorem snapshot_retrievable_iff (kind : StorageKind) (ck : OverflowChecks) (e : NodeEngine) (log : List NodeAction)
    (inputs : List NodeInput) (σ : kind.backend.Store)
    (hrun : Run ck genesisBlock State.new (.new .new) e log inputs)
    (hc : NoCollision (blocksSeen genesisBlock (.new .new) inputs))
    (hexec : kind.backend.execute kind.backend.empty log = .ok σ) (h : Hash) (b : Block)
    (hb : e.blockchain.blockAt h = some b) :
    Retrievable kind.backend ck genesisBlock State.new e σ h ↔ h ≠ genesisBlock.hash := by
  have hstart : Start ck (.new .new) genesisBlock State.new := .new
  have hI := hstart.persist_inv False (hrun.guarded fun _ _ h => h.elim) hc
  obtain ⟨imports, himp, -⟩ := hI.imports
  have hview := (Backend.execute_view hexec).1
  rw [kind.backend.view_empty, himp.writes] at hview
  constructor
  · rintro ⟨path, s, -, -, hload⟩ rfl
    -- no import is of the genesis block, and the store was empty
    have hnone := snapshots_of_ne View.empty himp.fresh
    rw [← hview] at hnone
    simp only [Backend.view, hload, found] at hnone
    cases hnone
  · intro hne
    obtain ⟨x, hx, rfl⟩ := (himp.complete h b hb).resolve_left hne
    have hall : ∀ y ∈ imports, y.1.hash = x.1.hash → y.2.toBytes = x.2.toBytes := by
      intro y hy hh
      rw [(himp.derived y hy).functional (hstart.root_mem hc) (himp.derived x hx) hh]
    have hsnap := snapshots_of_mem View.empty hall (.inr ⟨x, hx, rfl⟩)
    rw [← hview] at hsnap
    obtain ⟨path, hpath, hreplay, -⟩ := hI.ledger.tree.path (hstart.root_mem hc) (himp.derived x hx) hb
    exact ⟨path, x.2, hpath, hreplay, found_eq_some hsnap⟩

end Retrievable

section RetrievableWitness

open Sample

def reorgStore : StorageKind.nvs.backend.Store :=
  (StorageKind.nvs.backend.execute StorageKind.nvs.backend.empty reorg.2).toOption.get (by decide +kernel)

theorem snapshot_retrievable_of_fork :
    Retrievable StorageKind.nvs.backend .debug genesis State.new reorg.1 reorgStore f₁.hash := by
  have hstored : (reorg.1.blockchain.blockAt f₁.hash).isSome = true := by decide +kernel
  obtain ⟨b, hb⟩ := Option.isSome_iff_exists.1 hstored
  exact (snapshot_retrievable_iff .nvs .debug reorg.1 reorg.2 reorgInputs reorgStore reorg_run
    reorg_noCollision (Backend.execute_get _) f₁.hash b hb).2 (by decide +kernel)

/-! The genesis block is the exception: storage has no snapshot of it, and with that answer a fork off the genesis block
makes the engine request height 0 from the peer. -/

def forkInputs : List NodeInput := [announce peer m₁, announce peer f₁]

def fork : NodeEngine × List NodeAction :=
  (runOn (fun _ _ => True) .debug genesis State.new (.new .new) [] forkInputs).get (by decide +kernel)

def forkStore (kind : StorageKind) : kind.backend.Store :=
  (kind.backend.execute kind.backend.empty fork.2).toOption.get (by cases kind <;> decide +kernel)

/-- the ranges requested by a step -/
def NodeEngine.requestsOf [Crypto] (ck : OverflowChecks) (e : NodeEngine) (input : NodeInput) :
    List (PeerId × UInt64 × UInt64) :=
  match e.step ck input with
  | .ok (_, acts) => acts.filterMap fun
    | .requestBlocks p fromHeight toHeight => some (p, fromHeight, toHeight)
    | _ => none
  | .error _ => []

theorem genesis_not_retrievable :
    Run .debug genesis State.new (.new .new) fork.1 fork.2 forkInputs ∧
    NoCollision (blocksSeen genesis (.new .new) forkInputs) ∧
    (fork.1.blockchain.blockAt genesis.hash).isSome = true ∧
    (∀ kind : StorageKind, kind.backend.execute kind.backend.empty fork.2 = .ok (forkStore kind) ∧
      kind.backend.loadSnapshot (forkStore kind) genesis.hash = .ok none) ∧
    fork.1.requestsOf .debug (.storageLoaded genesis.hash none) = [(peer, 0, 0)] :=
  ⟨(GuardedRun.of_runOn State.new_fits .start (Option.some_get _).symm).run, noCollision_of_list (by decide +kernel),
    by decide +kernel, fun kind => ⟨Backend.execute_get _, by cases kind <;> decide +kernel⟩, by decide +kernel⟩

end RetrievableWitness

end RustProof
