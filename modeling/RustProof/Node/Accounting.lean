/-
What `NodeEngine::import_parked_blocks` does with the blocks it takes from the parked ones.

The loop over siblings and the recursion below it remove keys from the map they walk. `Settled n` says what a part of it
has done when `n` blocks were in its hands: those and the ones it took from the map are all persisted or reported, and the
actions are in an order in which they can be replayed (`Accounted`). Parts are put together by `Settled.trans`.

The engine is an arbitrary one: whatever is parked under whichever hash.

Results:
- `importParkedBlocks_eq`: the model is the recursion of the source, though it counts its calls;
- `importParked_settled`: the recursion ends within as many calls as there are keys, and keeps the accounts;
- `import_parked_accounts_for_every_block`: the accounts in terms of the map and of the positions in the list.
-/
import RustProof.Core.StateCodec
import RustProof.Node.Sample

namespace RustProof

section Accounting

variable [Crypto] {ck : OverflowChecks}

/-! ## Fuel -/

theorem importEach_keys
    {importChildren : NodeEngine → Hash → State → Except Fault (NodeEngine × List NodeAction)}
    (hkeys : ∀ e h s e' acts, importChildren e h s = .ok (e', acts) → e'.pendingBlocks.len ≤ e.pendingBlocks.len)
    (s : State) (ps : List ParkedBlock) {e e' : NodeEngine} {acts : List NodeAction}
    (h : NodeEngine.importEach ck importChildren s ps e = .ok (e', acts)) : e'.pendingBlocks.len ≤ e.pendingBlocks.len := by
  induction ps generalizing e e' acts with
  | nil =>
    cases h
    exact Nat.le_refl _
  | cons p ps ih =>
    rw [NodeEngine.importEach] at h
    split at h
    · cases h
    · obtain ⟨⟨e₁, acts₁⟩, hrest, h⟩ := bind_ok h
      cases h
      exact ih hrest
    · rename_i bc imported _
      obtain ⟨⟨e₁, acts₁⟩, hbelow, h⟩ := bind_ok h
      obtain ⟨⟨e₂, acts₂⟩, hrest, h⟩ := bind_ok h
      cases h
      apply (ih hrest).trans
      unfold NodeEngine.importIfHead at hbelow
      split_ifs at hbelow
      · exact hkeys { e with blockchain := bc } _ _ _ _ hbelow
      · cases hbelow
        exact Nat.le_refl _

theorem importParked_keys (fuel : ℕ) (e : NodeEngine) (h : Hash) (s : State) (e' : NodeEngine) (acts : List NodeAction)
    (himport : NodeEngine.importParked ck fuel e h s = .ok (e', acts)) : e'.pendingBlocks.len ≤ e.pendingBlocks.len := by
  induction fuel generalizing e h s e' acts with
  | zero => cases himport
  | succ fuel ih =>
    rw [NodeEngine.importParked] at himport
    split at himport
    · cases himport
      exact Nat.le_refl _
    · exact (importEach_keys ih s _ himport).trans (BTreeMap.len_remove_le _ _)

/-- of the recursive call only what it does on maps with no more keys matters to the loop -/
theorem importEach_agrees {keys : ℕ}
    {importChildren importChildren' : NodeEngine → Hash → State → Except Fault (NodeEngine × List NodeAction)}
    (hagree : ∀ e h s, e.pendingBlocks.len ≤ keys → importChildren e h s = importChildren' e h s)
    (hkeys : ∀ e h s e' acts, importChildren e h s = .ok (e', acts) → e'.pendingBlocks.len ≤ e.pendingBlocks.len)
    (s : State) (ps : List ParkedBlock) {e : NodeEngine} (he : e.pendingBlocks.len ≤ keys) :
    NodeEngine.importEach ck importChildren s ps e = NodeEngine.importEach ck importChildren' s ps e := by
  induction ps generalizing e with
  | nil => rfl
  | cons p ps ih =>
    rw [NodeEngine.importEach, NodeEngine.importEach]
    split
    · rfl
    · rw [ih he]
    · rename_i bc imported _
      unfold NodeEngine.importIfHead
      split_ifs
      · rw [← hagree { e with blockchain := bc } _ _ he]
        cases hbelow : importChildren { e with blockchain := bc } p.block.hash imported.nextState with
        | error f => rfl
        | ok r =>
          have hrest := ih ((hkeys _ _ _ r.1 r.2 hbelow).trans he)
          simp only [bind, Except.bind, hrest]
      · have hrest := ih (e := { e with blockchain := bc }) he
        simp only [bind, Except.bind, hrest]

/-- fuel for more calls than there are keys changes nothing -/
theorem importParked_agrees (fuel fuel' : ℕ) (e : NodeEngine) (h : Hash) (s : State) (hfuel : e.pendingBlocks.len < fuel)
    (hfuel' : e.pendingBlocks.len < fuel') :
    NodeEngine.importParked ck fuel e h s = NodeEngine.importParked ck fuel' e h s := by
  induction fuel generalizing fuel' e h s with
  | zero => exact absurd hfuel (Nat.not_lt_zero _)
  | succ fuel ih =>
    obtain _ | fuel' := fuel'
    · exact absurd hfuel' (Nat.not_lt_zero _)
    rw [NodeEngine.importParked, NodeEngine.importParked]
    split
    · rfl
    · rename_i parked hparked
      have hlen := BTreeMap.len_remove hparked
      have hagree : ∀ e' h' s', e'.pendingBlocks.len ≤ e.pendingBlocks.len - 1 →
          NodeEngine.importParked ck fuel e' h' s' = NodeEngine.importParked ck fuel' e' h' s' := by
        intro e' h' s' hkeys
        exact ih fuel' e' h' s' (by omega) (by omega)
      exact importEach_agrees hagree (importParked_keys fuel) s parked (by simp only; omega)

/-- the recursion of the source, which knows no fuel -/
theorem importParkedBlocks_eq (e : NodeEngine) (h : Hash) (s : State) :
    e.importParkedBlocks ck h s =
      match e.pendingBlocks.get? h with
      | none => .ok (e, [])
      | some parkedBlocks =>
        NodeEngine.importEach ck (NodeEngine.importParkedBlocks ck) s parkedBlocks
          { e with pendingBlocks := e.pendingBlocks.remove h } := by
  rw [NodeEngine.importParkedBlocks, NodeEngine.importParked]
  cases hparked : e.pendingBlocks.get? h with
  | none => rfl
  | some parked =>
    have hlen := BTreeMap.len_remove hparked
    have hagree : ∀ e' h' s', e'.pendingBlocks.len ≤ e.pendingBlocks.len - 1 →
        NodeEngine.importParked ck e.pendingBlocks.len e' h' s' = NodeEngine.importParkedBlocks ck e' h' s' := by
      intro e' h' s' hkeys
      exact importParked_agrees _ _ e' h' s' (by omega) (Nat.lt_succ_self _)
    exact importEach_agrees hagree (importParked_keys _) s parked (by simp only; omega)

/-! ## The accounts -/

def NodeAction.isImportFailure : NodeAction → Bool
  | .reportEvent message => message = "failed importing parked block"
  | _ => false

/-- the blocks that are parked, counted with their repetitions -/
def NodeEngine.parkedCount (e : NodeEngine) : ℕ := BTreeMap.weight List.length e.pendingBlocks

/-- there is a block under this hash -/
def NodeEngine.Stores (e : NodeEngine) (h : Hash) : Prop := e.blockchain.blockAt h ≠ none

/-- a block with this hash is persisted -/
def Persists (acts : List NodeAction) (h : Hash) : Prop := ∃ b, .persistBlock b ∈ acts ∧ b.hash = h

/-- reports of failures, and blocks persisted with a state that has their root, each behind its parent -/
inductive Accounted : (stored : Hash → Prop) → List NodeAction → Prop
  | nil {stored : Hash → Prop} : Accounted stored []
  | failed {stored : Hash → Prop} {acts : List NodeAction} :
    Accounted stored acts → Accounted stored (.reportEvent "failed importing parked block" :: acts)
  | persisted {stored : Hash → Prop} {acts : List NodeAction} {b : Block} {s : State} :
    stored b.previousHash → s.Fits → b.stateRoot = s.computeStateRoot →
    Accounted (fun h => stored h ∨ h = b.hash) acts →
    Accounted stored (.persistBlock b :: .persistSnapshot b.hash s.toBytes :: acts)

namespace Accounted

variable {stored stored' : Hash → Prop} {acts acts' : List NodeAction}

theorem mono (h : Accounted stored acts) (hsub : ∀ x, stored x → stored' x) : Accounted stored' acts := by
  induction h generalizing stored' with
  | nil => exact .nil
  | failed _ ih => exact .failed (ih hsub)
  | persisted hparent hfits hroot _ ih =>
    apply persisted (hsub _ hparent) hfits hroot
    apply ih
    intro x hx
    exact hx.imp_left (hsub x)

theorem append (h : Accounted stored acts) (h' : Accounted (fun x => stored x ∨ Persists acts x) acts') :
    Accounted stored (acts ++ acts') := by
  induction h with
  | nil =>
    apply h'.mono
    rintro x (hx | ⟨b, hb, -⟩)
    · exact hx
    · cases hb
  | failed _ ih =>
    apply failed
    apply ih
    apply h'.mono
    rintro x (hx | ⟨b, hb, hbx⟩)
    · exact .inl hx
    · exact .inr ⟨b, by simpa using hb, hbx⟩
  | persisted hparent hfits hroot _ ih =>
    apply persisted hparent hfits hroot
    apply ih
    apply h'.mono
    rintro x (hx | ⟨c, hc, hcx⟩)
    · exact .inl (.inl hx)
    · simp only [List.mem_cons, NodeAction.persistBlock.injEq, reduceCtorEq, false_or] at hc
      rcases hc with rfl | hc
      · exact .inl (.inr hcx.symm)
      · exact .inr ⟨c, hc, hcx⟩

/-- what stands around a persisted block -/
theorem around (h : Accounted stored acts) {before after : List NodeAction} {b : Block}
    (heq : acts = before ++ .persistBlock b :: after) :
    (∃ (s : State) (rest : List NodeAction), after = .persistSnapshot b.hash s.toBytes :: rest ∧ s.Fits ∧
        b.stateRoot = s.computeStateRoot) ∧
      (stored b.previousHash ∨ Persists before b.previousHash) := by
  induction h generalizing before with
  | nil => simp at heq
  | failed _ ih =>
    cases before with
    | nil => cases heq
    | cons a before =>
      cases heq
      obtain ⟨hsnapshot, hparent⟩ := ih rfl
      refine ⟨hsnapshot, hparent.imp_right ?_⟩
      rintro ⟨p, hp, hpb⟩
      exact ⟨p, List.mem_cons_of_mem _ hp, hpb⟩
  | @persisted stored acts c s hparent hfits hroot _ ih =>
    match before with
    | [] =>
      cases heq
      exact ⟨⟨s, acts, rfl, hfits, hroot⟩, .inl hparent⟩
    | [_] => cases heq
    | _ :: _ :: before =>
      cases heq
      obtain ⟨hsnapshot, hparent⟩ := ih rfl
      refine ⟨hsnapshot, ?_⟩
      rcases hparent with (hstored | hc) | ⟨p, hp, hpb⟩
      · exact .inl hstored
      · exact .inr ⟨c, List.mem_cons_self, hc.symm⟩
      · exact .inr ⟨p, List.mem_cons_of_mem _ (List.mem_cons_of_mem _ hp), hpb⟩

end Accounted

/-! ## A part of the import -/

/-- `n` blocks were in hand and others may have been taken from the map: all of them are settled -/
structure Settled (n : ℕ) (e e' : NodeEngine) (acts : List NodeAction) : Prop where
  counted : e.parkedCount + n =
    e'.parkedCount + acts.countP NodeAction.isPersistBlock + acts.countP NodeAction.isImportFailure
  removed : ∀ h, e'.pendingBlocks.get? h = e.pendingBlocks.get? h ∨ e'.pendingBlocks.get? h = none
  keys : e'.pendingBlocks.len ≤ e.pendingBlocks.len
  accounted : Accounted e.Stores acts
  stores : ∀ h, e'.Stores h → e.Stores h ∨ Persists acts h
  head : e.Stores e.blockchain.headHash → e'.Stores e'.blockchain.headHash

namespace Settled

variable {n m : ℕ} {e e₁ e₂ : NodeEngine} {acts acts' : List NodeAction}

theorem refl (e : NodeEngine) : Settled 0 e e [] where
  counted := rfl
  removed _ := .inl rfl
  keys := Nat.le_refl _
  accounted := .nil
  stores _ h := .inl h
  head h := h

theorem trans (h : Settled n e e₁ acts) (h' : Settled m e₁ e₂ acts') : Settled (n + m) e e₂ (acts ++ acts') where
  counted := by
    have hfirst := h.counted
    have hthen := h'.counted
    rw [List.countP_append, List.countP_append]
    omega
  removed x := by
    rcases h'.removed x with hx | hx
    · rw [hx]
      exact h.removed x
    · exact .inr hx
  keys := h'.keys.trans h.keys
  accounted := h.accounted.append (h'.accounted.mono h.stores)
  stores x hx := by
    rcases h'.stores x hx with hx | ⟨b, hb, hbx⟩
    · rcases h.stores x hx with hx | ⟨b, hb, hbx⟩
      · exact .inl hx
      · exact .inr ⟨b, List.mem_append_left _ hb, hbx⟩
    · exact .inr ⟨b, List.mem_append_right _ hb, hbx⟩
  head hhead := h'.head (h.head hhead)

/-- a block that is refused is reported -/
theorem failed (e : NodeEngine) : Settled 1 e e [.reportEvent "failed importing parked block"] where
  counted := rfl
  removed _ := .inl rfl
  keys := Nat.le_refl _
  accounted := .failed .nil
  stores _ h := .inl h
  head h := h

/-- a block that is imported is persisted with the state it leads to -/
theorem added {b : Block} {s : State} {bc : Blockchain} {imported : ImportedBlock} (hs : s.Fits)
    (h : Blockchain.Added ck e.blockchain b s bc imported) :
    Settled 1 e { e with blockchain := bc } [.persistBlock b, .persistSnapshot b.hash imported.nextState.toBytes] := by
  obtain ⟨parent, hparent, haccepted⟩ := h.accepted
  refine ⟨rfl, fun _ => .inl rfl, Nat.le_refl _, ?_, ?_, ?_⟩
  · apply Accounted.persisted _ (haccepted.fits hs) haccepted.root .nil
    rw [NodeEngine.Stores, hparent]
    exact Option.some_ne_none parent
  · intro x hx
    rw [NodeEngine.Stores, h.blocks] at hx
    obtain ⟨c, hc⟩ := Option.ne_none_iff_exists'.1 hx
    rcases Blockchain.blockAfter_cases hc with hc | ⟨-, rfl, rfl⟩
    · exact .inl (by rw [NodeEngine.Stores, hc]; exact Option.some_ne_none c)
    · exact .inr ⟨c, List.mem_cons_self, rfl⟩
  · intro hhead
    obtain ⟨head, hhead⟩ := Option.ne_none_iff_exists'.1 hhead
    rw [NodeEngine.Stores, h.blocks, h.head]
    split_ifs
    · rw [Blockchain.blockAfter, if_pos rfl]
      exact Option.some_ne_none _
    · rw [Blockchain.blockAfter_of_some b hhead]
      exact Option.some_ne_none head

/-- the blocks under a key are in hand once it is removed -/
theorem of_taken {h : Hash} {parked : List ParkedBlock} (hparked : e.pendingBlocks.get? h = some parked)
    (hrest : Settled parked.length { e with pendingBlocks := e.pendingBlocks.remove h } e₁ acts) : Settled 0 e e₁ acts where
  counted := by
    have hcounted := hrest.counted
    have hweight := BTreeMap.weight_remove List.length e.pendingBlocks h
    rw [hparked, Option.map_some, Option.getD_some] at hweight
    simp only [NodeEngine.parkedCount] at hcounted ⊢
    omega
  removed x := by
    have hx := hrest.removed x
    simp only [BTreeMap.get?_remove] at hx
    split_ifs at hx
    · exact .inr (or_self_iff.1 hx)
    · exact hx
  keys := hrest.keys.trans (BTreeMap.len_remove_le _ _)
  accounted := hrest.accounted
  stores := hrest.stores
  head := hrest.head

end Settled

/-! ## The recursion -/

/-- how an import may panic, if `headed` says that there is a head -/
def Panics (ck : OverflowChecks) (headed : Prop) (f : Fault) : Prop := f.Checked ck ∨ f = .missingHead ∧ ¬ headed

theorem addBlock_panics {e : NodeEngine} {b : Block} {s : State} {f : Fault} {headed : Prop}
    (hhead : headed → e.Stores e.blockchain.headHash) (h : e.blockchain.addBlock ck b s = .error f) :
    Panics ck headed f := by
  have hvalid : ∀ parent, validateAndApplyBlock ck parent s b = .error f → f.Checked ck := by
    intro parent hf
    have hchecked := validate_checked ck parent b s
    rw [hf] at hchecked
    exact hchecked
  cases hlatest : e.blockchain.blockAt e.blockchain.headHash with
  | some head =>
    obtain ⟨parent, hf⟩ := Blockchain.addBlock_error hlatest h
    exact .inl (hvalid parent hf)
  | none =>
    have hno : ¬ headed := fun hc => hhead hc hlatest
    unfold Blockchain.addBlock at h
    split at h
    · cases h
    split at h
    · rename_i hf
      cases h
      exact .inl (hvalid _ hf)
    · cases h
    simp only [Blockchain.getLatestBlock] at h
    split at h
    · rename_i hf
      cases h
      split at hf
      · cases hf
      · cases hf
        exact .inr ⟨rfl, hno⟩
    · split_ifs at h

/-- the loop over siblings, if the recursion below it keeps the accounts -/
theorem importEach_settled {headed : Prop} {keys : ℕ}
    {importChildren : NodeEngine → Hash → State → Except Fault (NodeEngine × List NodeAction)}
    (hchildren : ∀ e h s, s.Fits → (headed → e.Stores e.blockchain.headHash) → e.pendingBlocks.len ≤ keys →
      Safe (Panics ck headed) (fun r => Settled 0 e r.1 r.2) (importChildren e h s))
    {s : State} (hs : s.Fits) (ps : List ParkedBlock) (e : NodeEngine)
    (hhead : headed → e.Stores e.blockchain.headHash) (hkeys : e.pendingBlocks.len ≤ keys) :
    Safe (Panics ck headed) (fun r => Settled ps.length e r.1 r.2) (NodeEngine.importEach ck importChildren s ps e) := by
  induction ps generalizing e with
  | nil => exact Settled.refl e
  | cons p ps ih =>
    rw [NodeEngine.importEach]
    split
    · rename_i f hadd
      exact addBlock_panics hhead hadd
    · apply (ih e hhead hkeys).bind
      intro r hr _
      have hsettled := (Settled.failed e).trans hr
      rwa [Nat.add_comm] at hsettled
    · rename_i bc imported hadd
      have hadded := Blockchain.addBlock_ok hadd
      have hsettled := Settled.added hs hadded
      obtain ⟨parent, -, haccepted⟩ := hadded.accepted
      have hbelow : Safe (Panics ck headed) (fun r => Settled 0 { e with blockchain := bc } r.1 r.2)
          (NodeEngine.importIfHead importChildren { e with blockchain := bc } p.block.hash imported) := by
        unfold NodeEngine.importIfHead
        split_ifs
        · exact hchildren _ _ _ (haccepted.fits hs) (fun hc => hsettled.head (hhead hc)) hkeys
        · exact Settled.refl _
      apply hbelow.bind
      intro r hr _
      have hsofar := hsettled.trans hr
      apply (ih r.1 (fun hc => hsofar.head (hhead hc)) (hsofar.keys.trans hkeys)).bind
      intro r' hr' _
      have hall := hsofar.trans hr'
      rw [Nat.add_zero, Nat.add_comm] at hall
      exact hall

/-- every call that goes on has removed a key -/
theorem importParked_settled {headed : Prop} (fuel : ℕ) (e : NodeEngine) (h : Hash) (s : State) (hs : s.Fits)
    (hhead : headed → e.Stores e.blockchain.headHash) (hfuel : e.pendingBlocks.len < fuel) :
    Safe (Panics ck headed) (fun r => Settled 0 e r.1 r.2) (NodeEngine.importParked ck fuel e h s) := by
  induction fuel generalizing e h s with
  | zero => exact absurd hfuel (Nat.not_lt_zero _)
  | succ fuel ih =>
    rw [NodeEngine.importParked]
    split
    · exact Settled.refl e
    · rename_i parked hparked
      have hlen := BTreeMap.len_remove hparked
      have hchildren : ∀ e' h' s', s'.Fits → (headed → e'.Stores e'.blockchain.headHash) →
          e'.pendingBlocks.len ≤ fuel - 1 →
          Safe (Panics ck headed) (fun r => Settled 0 e' r.1 r.2) (NodeEngine.importParked ck fuel e' h' s') := by
        intro e' h' s' hs' hhead' hkeys'
        exact ih e' h' s' hs' hhead' (by omega)
      have hloop := importEach_settled hchildren hs parked { e with pendingBlocks := e.pendingBlocks.remove h } hhead
        (by simp only; omega)
      cases hresult : NodeEngine.importEach ck (NodeEngine.importParked ck fuel) s parked
          { e with pendingBlocks := e.pendingBlocks.remove h } with
      | error f =>
        rw [hresult] at hloop
        exact hloop
      | ok r =>
        rw [hresult] at hloop
        exact Settled.of_taken hparked hloop

/-- **Importing parked blocks ends and accounts for every block.** It panics only in checked arithmetic, at the limits of
memory, or without a head; what it returns names every block it took, in an order in which it can be replayed. -/
theorem import_parked_accounts_for_every_block (ck : OverflowChecks) (e : NodeEngine) (parentHash : Hash)
    {parentState : State} (hfits : parentState.Fits) :
    (∀ f, e.importParkedBlocks ck parentHash parentState = .error f →
      f.Checked ck ∨ f = .missingHead ∧ e.blockchain.blockAt e.blockchain.headHash = none) ∧
    ∀ e' acts, e.importParkedBlocks ck parentHash parentState = .ok (e', acts) →
      (∀ h, e'.pendingBlocks.get? h = e.pendingBlocks.get? h ∨ e'.pendingBlocks.get? h = none) ∧
      e.parkedCount =
        e'.parkedCount + acts.countP NodeAction.isPersistBlock + acts.countP NodeAction.isImportFailure ∧
      ∀ before b after, acts = before ++ .persistBlock b :: after →
        (∃ bytes rest s, after = .persistSnapshot b.hash bytes :: rest ∧ State.fromBytes bytes = .ok (.ok s) ∧
          s.computeStateRoot = b.stateRoot) ∧
        (e.blockchain.blockAt b.previousHash ≠ none ∨ ∃ p, .persistBlock p ∈ before ∧ p.hash = b.previousHash) := by
  have hmain : Safe (Panics ck (e.Stores e.blockchain.headHash)) (fun r => Settled 0 e r.1 r.2)
      (e.importParkedBlocks ck parentHash parentState) :=
    importParked_settled _ e parentHash parentState hfits id (Nat.lt_succ_self _)
  refine ⟨?_, ?_⟩
  · intro f hf
    rw [hf] at hmain
    exact hmain.imp_right fun h => ⟨h.1, not_not.1 h.2⟩
  · intro e' acts hok
    rw [hok] at hmain
    have hsettled : Settled 0 e e' acts := hmain
    refine ⟨hsettled.removed, hsettled.counted, ?_⟩
    intro before b after heq
    obtain ⟨⟨s, rest, hafter, hs, hroot⟩, hparent⟩ := hsettled.accounted.around heq
    have hbytes := fromBytes_toBytes hs []
    rw [List.append_nil] at hbytes
    exact ⟨⟨s.toBytes, rest, s, hafter, hbytes, hroot.symm⟩, hparent⟩

end Accounting

section Witness

open Sample

/-- two blocks parked under the genesis block, of which one belongs elsewhere, and one below -/
def parkedEngine : NodeEngine :=
  { NodeEngine.new .new with
    pendingBlocks := (BTreeMap.empty.insert genesis.hash [⟨peer, m₁⟩, ⟨peer, f₂⟩]).insert m₁.hash [⟨peer, m₂⟩] }

def importGenesisChildren : Except Fault (NodeEngine × List NodeAction) :=
  parkedEngine.importParkedBlocks .release genesis.hash .new

def importedParked : NodeEngine × List NodeAction := importGenesisChildren.toOption.get (by decide +kernel)

theorem import_parked_accounts_for_every_block_parked :
    parkedEngine.parkedCount = importedParked.1.parkedCount +
        importedParked.2.countP NodeAction.isPersistBlock + importedParked.2.countP NodeAction.isImportFailure ∧
      importedParked.2.countP NodeAction.isPersistBlock = 2 ∧
      importedParked.2.countP NodeAction.isImportFailure = 1 := by
  obtain ⟨-, hreturned⟩ := import_parked_accounts_for_every_block .release parkedEngine genesis.hash State.new_fits
  have hok : importGenesisChildren = .ok (importedParked.1, importedParked.2) := eq_ok_pair _
  obtain ⟨-, hcount, -⟩ := hreturned _ _ hok
  have hpersisted : importedParked.2.countP NodeAction.isPersistBlock = 2 := by decide +kernel
  have hfailed : importedParked.2.countP NodeAction.isImportFailure = 1 := by decide +kernel
  exact ⟨hcount, hpersisted, hfailed⟩

end Witness

end RustProof
