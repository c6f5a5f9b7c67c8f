/-
Which parked blocks an import drops (`rp-node/src/node_engine.rs`, `import_parked_blocks`).

A reply `StorageLoaded` with the state of a stored block takes all blocks parked under that block from the parked ones and
tries to import each. An import needs the parent in the chain of the engine, not in the storage: after a restart these
are not the same blocks.

Results:
- `parked_kept_iff`: the blocks parked under a stored block that are valid on it all end up in the chain, or stay parked,
  exactly if the chain has the stored block, or all of them already;
- `fork_dropped_after_restore`: a valid fork off the block below the restored head is dropped.
-/
import RustProof.Node.Ledger

namespace RustProof

section Discard

variable [Crypto] {ck : OverflowChecks}

/-! ## The chain only grows -/

/-- every block is stored under its own hash -/
def Keyed (e : NodeEngine) : Prop := ∀ h b, e.blockchain.blockAt h = some b → b.hash = h

/-- what is in the chain stays -/
def Grows (e e' : NodeEngine) : Prop :=
  ∀ h b, e.blockchain.blockAt h = some b → e'.blockchain.blockAt h = some b

theorem Grows.refl (e : NodeEngine) : Grows e e := fun _ _ hb => hb

theorem Grows.trans {e₁ e₂ e₃ : NodeEngine} (h : Grows e₁ e₂) (h' : Grows e₂ e₃) : Grows e₁ e₃ :=
  fun x b hb => h' x b (h x b hb)

theorem Blockchain.Added.grows {e : NodeEngine} {b : Block} {s : State} {bc : Blockchain} {imported : ImportedBlock}
    (h : Blockchain.Added ck e.blockchain b s bc imported) : Grows e { e with blockchain := bc } := by
  intro x c hc
  rw [h.blocks]
  exact Blockchain.blockAfter_of_some b hc

theorem Blockchain.Added.stored {bc bc' : Blockchain} {b : Block} {s : State} {imported : ImportedBlock}
    (h : Blockchain.Added ck bc b s bc' imported) : bc'.blockAt b.hash ≠ none := by
  rw [h.blocks, Blockchain.blockAfter, if_pos rfl]
  exact Option.some_ne_none _

theorem keyedRule (ck : OverflowChecks) :
    NodeEngine.EngineRule ck (fun _ _ => True) Block.Sized (fun _ _ => True) (fun _ => True)
      (fun _ e _ => Parked Block.Sized e ∧ Keyed e) fun _ _ e _ => Parked Block.Sized e ∧ Keyed e where
  quiet hI hsame _ := by
    refine ⟨hI.1.of_same hsame, ?_⟩
    intro h b hb
    rw [Blockchain.blockAt, hsame.chain] at hb
    exact hI.2 h b hb
  note hI := hI
  report hI := hI
  park hI hb _ := ⟨hI.1.park _ hb, hI.2⟩
  direct hI _ _ := hI
  head _ := trivial
  skip hI _ := hI
  take hI hp := ⟨⟨hI.1.take _, hI.2⟩, hI.1 _ _ hp⟩
  add hI _ _ _ hadd := by
    refine ⟨trivial, ⟨hI.1, ?_⟩, fun _ => ⟨hI.1, ?_⟩⟩ <;>
    · intro h b hb
      rw [(Blockchain.addBlock_ok hadd).blocks] at hb
      rcases Blockchain.blockAfter_cases hb with hb | ⟨-, rfl, rfl⟩
      · exact hI.2 h b hb
      · rfl
  refuse hI _ _ _ := hI
  addFault _ _ _ _ := trivial
  latestFault _ _ := trivial
  serveFault _ _ := trivial

theorem Reachable.keyed {e : NodeEngine} (h : Reachable ck e) : Keyed e := by
  -- a chain of one block
  have hsingle : ∀ (e : NodeEngine) (b : Block) children,
      e.blockchain.chain = BTreeMap.empty.insert b.hash ⟨b, children⟩ → Keyed e := by
    intro e b children hchain x c hc
    rw [Blockchain.blockAt, hchain, BTreeMap.get?_insert] at hc
    split_ifs at hc with hx
    · cases hc
      exact hx
    · cases hc
  induction h with
  | new => exact hsingle _ genesisBlock [] rfl
  | step prev hstep ih => exact ((keyedRule ck).keeps ⟨prev.parked, ih⟩ hstep).2
  | restore prev hrestore ih =>
    unfold NodeEngine.restoreLatestSnapshot at hrestore
    split at hrestore
    · split at hrestore
      · cases hrestore
      · cases hrestore
        exact ih
      · split_ifs at hrestore
        · cases hrestore
          exact ih
        · cases hrestore
          exact hsingle _ _ [] rfl
    · cases hrestore
      exact ih

/-! ## The loop over parked blocks -/

variable {importChildren : NodeEngine → Hash → State → Except Fault (NodeEngine × List NodeAction)}

theorem importIfHead_grows
    (hchildren : ∀ e h s e' acts, importChildren e h s = .ok (e', acts) → Grows e e') {e e' : NodeEngine} {h : Hash}
    {imported : ImportedBlock} {acts : List NodeAction}
    (himport : NodeEngine.importIfHead importChildren e h imported = .ok (e', acts)) : Grows e e' := by
  unfold NodeEngine.importIfHead at himport
  split_ifs at himport
  · exact hchildren _ _ _ _ _ himport
  · cases himport
    exact Grows.refl e

theorem importEach_grows
    (hchildren : ∀ e h s e' acts, importChildren e h s = .ok (e', acts) → Grows e e') (s : State)
    (ps : List ParkedBlock) {e e' : NodeEngine} {acts : List NodeAction}
    (himport : NodeEngine.importEach ck importChildren s ps e = .ok (e', acts)) : Grows e e' := by
  induction ps generalizing e e' acts with
  | nil =>
    cases himport
    exact Grows.refl e
  | cons p ps ih =>
    rw [NodeEngine.importEach] at himport
    split at himport
    · cases himport
    · obtain ⟨⟨e₁, acts₁⟩, hrest, himport⟩ := bind_ok himport
      cases himport
      exact ih hrest
    · rename_i bc imported hadd
      obtain ⟨⟨e₁, acts₁⟩, hhead, himport⟩ := bind_ok himport
      obtain ⟨⟨e₂, acts₂⟩, hrest, himport⟩ := bind_ok himport
      cases himport
      exact (Blockchain.addBlock_ok hadd).grows.trans ((importIfHead_grows hchildren hhead).trans (ih hrest))

theorem importParked_grows (fuel : ℕ) (e : NodeEngine) (h : Hash) (s : State) (e' : NodeEngine)
    (acts : List NodeAction) (himport : NodeEngine.importParked ck fuel e h s = .ok (e', acts)) : Grows e e' := by
  induction fuel generalizing e h s e' acts with
  | zero => cases himport
  | succ fuel ih =>
    rw [NodeEngine.importParked] at himport
    split at himport
    · cases himport
      exact Grows.refl e
    · have hloop : Grows { e with pendingBlocks := e.pendingBlocks.remove h } e' := importEach_grows ih s _ himport
      exact hloop

/-- `validate_and_apply_block` accepts `b` on `parent` and its state -/
def Acceptable (ck : OverflowChecks) (parent : Block) (s : State) (b : Block) : Prop :=
  ∃ applied, validateAndApplyBlock ck parent s b = .ok (.ok applied)

/-- where the parent is in the chain, all that are valid on it get there -/
theorem importEach_stores
    (hchildren : ∀ e h s e' acts, importChildren e h s = .ok (e', acts) → Grows e e') {h : Hash} {parent : Block}
    {s : State} (ps : List ParkedBlock) (hps : ∀ p ∈ ps, p.block.previousHash = h) {e e' : NodeEngine}
    {acts : List NodeAction} (hparent : e.blockchain.blockAt h = some parent)
    (himport : NodeEngine.importEach ck importChildren s ps e = .ok (e', acts)) :
    ∀ p ∈ ps, Acceptable ck parent s p.block → e'.blockchain.blockAt p.block.hash ≠ none := by
  induction ps generalizing e e' acts with
  | nil =>
    intro p hp
    cases hp
  | cons q ps ih =>
    have hrest := fun p hp => hps p (List.mem_cons_of_mem q hp)
    have hq := hps q List.mem_cons_self
    rw [NodeEngine.importEach] at himport
    split at himport
    · cases himport
    · rename_i err hadd
      obtain ⟨⟨e₁, acts₁⟩, hloop, himport⟩ := bind_ok himport
      cases himport
      intro p hp hvalid
      rcases List.mem_cons.1 hp with rfl | hp
      · -- neither is the parent missing nor is the block invalid
        obtain ⟨applied, hvalid⟩ := hvalid
        rcases Blockchain.addBlock_refused hadd with hnone | ⟨parent', err', hparent', herr⟩
        · rw [hq, hparent] at hnone
          cases hnone
        · rw [hq, hparent] at hparent'
          cases hparent'
          rw [hvalid] at herr
          cases herr
      · exact ih hrest hparent hloop p hp hvalid
    · rename_i bc imported hadd
      obtain ⟨⟨e₁, acts₁⟩, hhead, himport⟩ := bind_ok himport
      obtain ⟨⟨e₂, acts₂⟩, hloop, himport⟩ := bind_ok himport
      cases himport
      have hadded := Blockchain.addBlock_ok hadd
      have hgrows := importIfHead_grows hchildren hhead
      intro p hp hvalid
      rcases List.mem_cons.1 hp with rfl | hp
      · obtain ⟨c, hc⟩ := Option.ne_none_iff_exists'.1 hadded.stored
        rw [importEach_grows hchildren s ps hloop _ c (hgrows _ c hc)]
        exact Option.some_ne_none c
      · exact ih hrest (hgrows h parent (hadded.grows h parent hparent)) hloop p hp hvalid

/-- where it is not, all of them are refused -/
theorem importEach_refuses {h : Hash} {s : State} (ps : List ParkedBlock) (hps : ∀ p ∈ ps, p.block.previousHash = h)
    {e : NodeEngine} (hparent : e.blockchain.blockAt h = none) :
    ∃ acts, NodeEngine.importEach ck importChildren s ps e = .ok (e, acts) := by
  induction ps with
  | nil => exact ⟨[], rfl⟩
  | cons p ps ih =>
    obtain ⟨acts, hloop⟩ := ih fun q hq => hps q (List.mem_cons_of_mem p hq)
    have hnode : e.blockchain.chain.get? p.block.previousHash = none := by
      rw [hps p List.mem_cons_self]
      exact Option.map_eq_none_iff.1 hparent
    have hadd : e.blockchain.addBlock ck p.block s = .ok (.error .parentBlockNotFoundError) := by
      rw [Blockchain.addBlock, hnode]
    refine ⟨.reportEvent "failed importing parked block" :: acts, ?_⟩
    rw [NodeEngine.importEach, hadd, hloop]
    rfl

/-! ## A storage reply -/

/-- in the chain, or still parked -/
def Kept (e : NodeEngine) (p : ParkedBlock) : Prop :=
  e.blockchain.blockAt p.block.hash ≠ none ∨ ∃ h, p ∈ e.pendingBlocks.getD h []

/-- a parent matters through its hash, if that does not collide -/
theorem Acceptable.of_hash_eq {parent parent' b : Block} {s : State} (hcol : NoCollision {parent, parent'})
    (hhash : parent.hash = parent'.hash) (h : Acceptable ck parent s b) : Acceptable ck parent' s b := by
  have hbytes := hcol parent (Set.mem_insert _ _) parent' (Set.mem_insert_of_mem _ rfl) hhash
  obtain ⟨height, slot, previousHash, validator, transactions, signature, slashProofs, stateRoot⟩ := parent
  obtain ⟨height', slot', previousHash', validator', transactions', signature', slashProofs', stateRoot'⟩ := parent'
  simp only [Block.toBytes] at hbytes
  obtain ⟨hheight, hrest⟩ := u64ToBe_append_inj hbytes
  obtain ⟨hslot, -⟩ := u64ToBe_append_inj hrest
  obtain ⟨⟨s'⟩, hvalid⟩ := h
  exact ⟨⟨s'⟩, validate_ok_iff.2 ((validate_ok_iff.1 hvalid).of_parent hheight hslot)⟩

theorem mem_parked {e : NodeEngine} (he : Parked Block.Sized e) {h : Hash} {p : ParkedBlock}
    (hp : p ∈ e.pendingBlocks.getD h []) : p.block.previousHash = h := by
  rw [BTreeMap.getD] at hp
  cases hl : e.pendingBlocks.get? h with
  | none =>
    rw [hl] at hp
    cases hp
  | some l =>
    rw [hl] at hp
    exact (he h l hl p hp).2

/-- a reply with a state imports what is parked, if anything is -/
theorem step_loaded {e e' : NodeEngine} {h : Hash} {bytes : List UInt8} {s : State} {acts : List NodeAction}
    (hbytes : State.fromBytes bytes = .ok (.ok s)) (hstep : e.step ck (.storageLoaded h (some bytes)) = .ok (e', acts))
    {p : ParkedBlock} (hp : p ∈ e.pendingBlocks.getD h []) :
    ∃ e₁ acts₁, NodeEngine.importEach ck (NodeEngine.importParked ck e.pendingBlocks.len) s (e.pendingBlocks.getD h [])
        { e with pendingBlocks := e.pendingBlocks.remove h } = .ok (e₁, acts₁) ∧ e₁.SameLedger e' := by
  obtain ⟨⟨e₁, acts₁⟩, hhandle, hstep⟩ := bind_ok hstep
  have hsame := (NodeEngine.syncWakeAction_quiet e₁).1
  have hwake : e₁.syncWakeAction.1 = e' := (Prod.mk.inj (Except.ok.inj hstep)).1
  rw [hwake] at hsame
  refine ⟨e₁, acts₁, ?_, hsame⟩
  rw [BTreeMap.getD] at hp ⊢
  cases hl : e.pendingBlocks.get? h with
  | none =>
    rw [hl] at hp
    cases hp
  | some l =>
    rw [hl] at hp
    cases l with
    | nil => cases hp
    | cons q ps =>
      simp only [NodeEngine.handle, NodeEngine.handleStorageLoaded, hl, Option.bind_some, List.head?_cons, hbytes,
        NodeEngine.importParkedBlocks, NodeEngine.importParked] at hhandle
      exact hhandle

/-- **The parked blocks that are valid are kept exactly if the chain has their parent, or has them already.** -/
theorem parked_kept_iff {e e' : NodeEngine} (hreach : Reachable ck e) {stored : Block} {bytes : List UInt8} {s : State}
    (hbytes : State.fromBytes bytes = .ok (.ok s))
    (hcol : ∀ b, e.blockchain.blockAt stored.hash = some b → NoCollision {stored, b}) {acts : List NodeAction}
    (hstep : e.step ck (.storageLoaded stored.hash (some bytes)) = .ok (e', acts)) :
    (∀ p ∈ e.pendingBlocks.getD stored.hash [], Acceptable ck stored s p.block → Kept e' p) ↔
      ∀ p ∈ e.pendingBlocks.getD stored.hash [], Acceptable ck stored s p.block →
        e.blockchain.blockAt stored.hash ≠ none ∨ e.blockchain.blockAt p.block.hash ≠ none := by
  have hparked := hreach.parked
  refine forall₂_congr fun p hp => imp_congr_right fun hvalid => ?_
  obtain ⟨e₁, acts₁, hloop, hsame⟩ := step_loaded hbytes hstep hp
  have hprev : ∀ q ∈ e.pendingBlocks.getD stored.hash [], q.block.previousHash = stored.hash := fun q hq =>
    mem_parked hparked hq
  have hchain : ∀ h, e'.blockchain.blockAt h = e₁.blockchain.blockAt h := fun h => by
    rw [Blockchain.blockAt, hsame.chain]
    rfl
  cases hparent : e.blockchain.blockAt stored.hash with
  | some parent =>
    refine iff_of_true (.inl ?_) (.inl (Option.some_ne_none parent))
    have hhash : stored.hash = parent.hash := (hreach.keyed _ _ hparent).symm
    rw [hchain]
    exact importEach_stores (e := { e with pendingBlocks := e.pendingBlocks.remove stored.hash }) (importParked_grows _) _
      hprev hparent hloop p hp (hvalid.of_hash_eq (hcol parent hparent) hhash)
  | none =>
    have hrefused : ∃ acts₂, NodeEngine.importEach ck (NodeEngine.importParked ck e.pendingBlocks.len) s
        (e.pendingBlocks.getD stored.hash []) { e with pendingBlocks := e.pendingBlocks.remove stored.hash } =
          .ok ({ e with pendingBlocks := e.pendingBlocks.remove stored.hash }, acts₂) :=
      importEach_refuses _ hprev hparent
    obtain ⟨acts₂, hrefused⟩ := hrefused
    cases hloop.symm.trans hrefused
    constructor
    · rintro (hin | ⟨h, hstill⟩)
      · rw [hchain] at hin
        exact .inr hin
      · -- it was parked under this hash only
        rw [hsame.pending, BTreeMap.getD, BTreeMap.get?_remove] at hstill
        split_ifs at hstill with hh
        · cases hstill
        · exact absurd ((hprev p hp).symm.trans (mem_parked hparked hstill)) hh
    · rintro (hno | hin)
      · exact absurd rfl hno
      · refine .inl ?_
        rw [hchain]
        exact hin

end Discard

section Witness

open Sample

/-- an engine with `m₂` as its head, and `n₂` announced, which is a block on `m₁` -/
def withFork (e : NodeEngine) : Except Fault NodeEngine := do
  let (e, _) ← e.step .release (announce peer n₂)
  pure e

/-- the engine that imported the genesis block's descendants itself -/
def grown : Except Fault NodeEngine := do
  let (e, _) ← (NodeEngine.new .new).step .release (announce peer m₁)
  let (e, _) ← e.step .release (announce peer m₂)
  pure e

/-- the engine that was restored from a stored `m₂` -/
def restoredAt : Except Fault NodeEngine := do
  let (e, _) ← (NodeEngine.new .new).restoreLatestSnapshot (some m₂) (some State.new.toBytes)
  pure e

/-- the stored state of `m₁` -/
def loadedParent (e : NodeEngine) : Except Fault (NodeEngine × List NodeAction) :=
  e.step .release (.storageLoaded m₁.hash (some State.new.toBytes))

theorem Reachable.withFork {e e' : NodeEngine} (h : Reachable .release e) (hf : RustProof.withFork e = .ok e') :
    Reachable .release e' := by
  obtain ⟨⟨e₁, acts⟩, hstep, hf⟩ := bind_ok hf
  cases hf
  exact h.step hstep

theorem Reachable.grown {e : NodeEngine} (h : RustProof.grown = .ok e) : Reachable .release e := by
  obtain ⟨⟨e₁, acts₁⟩, h₁, h⟩ := bind_ok h
  obtain ⟨⟨e₂, acts₂⟩, h₂, h⟩ := bind_ok h
  cases h
  exact (Reachable.new.step h₁).step h₂

theorem Reachable.restoredAt {e : NodeEngine} (h : RustProof.restoredAt = .ok e) : Reachable .release e := by
  obtain ⟨⟨e₁, acts₁⟩, h₁, h⟩ := bind_ok h
  cases h
  exact Reachable.new.restore h₁

/-- the first block parked under `m₁` -/
def parkedFork (e : NodeEngine) : Option ParkedBlock := (e.pendingBlocks.getD m₁.hash []).head?

theorem mem_of_parkedFork {e : NodeEngine} {p : ParkedBlock} (h : parkedFork e = some p) :
    p ∈ e.pendingBlocks.getD m₁.hash [] := List.mem_of_head? h

def accepts (b : Block) : Bool :=
  match validateAndApplyBlock .release m₁ State.new b with
  | .ok (.ok _) => true
  | _ => false

theorem acceptable_of_accepts {b : Block} (h : accepts b = true) : Acceptable .release m₁ State.new b := by
  unfold accepts at h
  split at h
  · rename_i applied hvalid
    exact ⟨applied, hvalid⟩
  · cases h

theorem loadedBytes : State.fromBytes State.new.toBytes = .ok (.ok State.new) := by
  have hround := fromBytes_toBytes State.new_fits []
  rwa [List.append_nil] at hround

def grownFork : NodeEngine := (grown.bind withFork).toOption.get (by decide +kernel)
def importedFork : NodeEngine × List NodeAction := (loadedParent grownFork).toOption.get (by decide +kernel)
def grownParked : ParkedBlock := (parkedFork grownFork).get (by decide +kernel)

/-- with `m₁` in the chain, the fork is imported -/
theorem parked_kept_iff_grown : ∃ p ∈ grownFork.pendingBlocks.getD m₁.hash [], Kept importedFork.1 p := by
  have hreach : Reachable .release grownFork := by
    obtain ⟨e, hgrown, hforked⟩ := bind_ok (eq_ok_get (x := grown.bind withFork) (by decide +kernel))
    exact (Reachable.grown hgrown).withFork hforked
  have hstep : loadedParent grownFork = .ok (importedFork.1, importedFork.2) := eq_ok_pair _
  have hhead : parkedFork grownFork = some grownParked := (Option.some_get _).symm
  have haccepts : accepts grownParked.block = true := by decide +kernel
  have hparent : grownFork.blockchain.blockAt m₁.hash = some m₁ := eq_some_of_sameEmpty (by decide +kernel)
  have hcol : ∀ b, grownFork.blockchain.blockAt m₁.hash = some b → NoCollision {m₁, b} := by
    intro b hb
    rw [hparent] at hb
    cases hb
    intro a ha b hb _
    rcases ha with rfl | rfl <;> rcases hb with rfl | rfl <;> rfl
  have hkept := (parked_kept_iff hreach loadedBytes hcol hstep).2
    (fun p _ _ => .inl (by rw [hparent]; exact Option.some_ne_none m₁))
  exact ⟨grownParked, mem_of_parkedFork hhead, hkept _ (mem_of_parkedFork hhead) (acceptable_of_accepts haccepts)⟩

def restoredFork : NodeEngine := (restoredAt.bind withFork).toOption.get (by decide +kernel)
def droppedFork : NodeEngine × List NodeAction := (loadedParent restoredFork).toOption.get (by decide +kernel)
def restoredParked : ParkedBlock := (parkedFork restoredFork).get (by decide +kernel)

/-- the storage holds `m₁` and its state, the chain begins at `m₂` -/
theorem fork_dropped_after_restore : ∃ e e' acts, Reachable .release e ∧
    State.fromBytes State.new.toBytes = .ok (.ok State.new) ∧
    e.step .release (.storageLoaded m₁.hash (some State.new.toBytes)) = .ok (e', acts) ∧
    ∃ p ∈ e.pendingBlocks.getD m₁.hash [], Acceptable .release m₁ State.new p.block ∧ ¬ Kept e' p := by
  have hreach : Reachable .release restoredFork := by
    obtain ⟨e, hrestored, hforked⟩ := bind_ok (eq_ok_get (x := restoredAt.bind withFork) (by decide +kernel))
    exact (Reachable.restoredAt hrestored).withFork hforked
  have hstep : loadedParent restoredFork = .ok (droppedFork.1, droppedFork.2) := eq_ok_pair _
  have hhead : parkedFork restoredFork = some restoredParked := (Option.some_get _).symm
  have haccepts : accepts restoredParked.block = true := by decide +kernel
  refine ⟨restoredFork, droppedFork.1, droppedFork.2, hreach, loadedBytes, hstep, restoredParked, mem_of_parkedFork hhead,
    acceptable_of_accepts haccepts, ?_⟩
  have hnone : (droppedFork.1.blockchain.blockAt restoredParked.block.hash).isNone = true := by decide +kernel
  have hempty : droppedFork.1.pendingBlocks = .empty := (BTreeMap.isEmpty_iff _).1 (by decide +kernel)
  rintro (hin | ⟨h, hstill⟩)
  · exact hin (Option.isNone_iff_eq_none.1 hnone)
  · rw [hempty] at hstill
    cases hstill

end Witness

end RustProof
