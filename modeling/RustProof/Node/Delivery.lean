/-
Blocks announced in any order.

A set of blocks, every one valid on its parent's state, is announced to a fresh engine, children before parents or not.
Storage answers every `LoadSnapshot`, at any time after it was asked, with what was last persisted by then. The invariant
has two parts: a block delivered is in the tree, or parked, or in the hands of the step (`kept`); and a block parked under
a hash of the tree has a load open that was asked after the hash was persisted, so that its answer carries a state
(`waiting`). The second part is lost when a block with parked children is imported and does not become head, since
`import_parked_blocks` then stops: that is the condition `NoChildLeft` of `delivery_agreement`, and
`side_branch_left_parked` is a run without it.
-/
import RustProof.Node.Ledger

namespace RustProof

section Delivery

variable [Crypto]

/-! ## Storage -/

/-- the snapshot an action persists for `h` -/
def NodeAction.snapshotOf (h : Hash) : NodeAction → Option (List UInt8)
  | .persistSnapshot blockHash stateBytes => if blockHash = h then some stateBytes else none
  | _ => none

/-- the answer to `LoadSnapshot{h}` after a log: the bytes last persisted, or the root's state for the root -/
def lastPersisted (root : Block) (s0 : State) (log : List NodeAction) (h : Hash) : Option (List UInt8) :=
  (log.filterMap (NodeAction.snapshotOf h)).getLast?.or (if h = root.hash then some s0.toBytes else none)

theorem snapshotOf_eq_some {h : Hash} {a : NodeAction} {bytes : List UInt8} (ha : a.snapshotOf h = some bytes) :
    a = .persistSnapshot h bytes := by
  unfold NodeAction.snapshotOf at ha
  split at ha
  · split_ifs at ha with hh
    cases ha
    rw [hh]
  · cases ha

/-- `h` is the root's, or a snapshot of it was persisted -/
def Persisted (root : Block) (log : List NodeAction) (h : Hash) : Prop :=
  h = root.hash ∨ ∃ bytes, NodeAction.persistSnapshot h bytes ∈ log

theorem Persisted.mono {root : Block} {log log' : List NodeAction} {h : Hash} (hp : Persisted root log h)
    (hsub : log ⊆ log') : Persisted root log' h := by
  rcases hp with hroot | ⟨bytes, hmem⟩
  · exact .inl hroot
  · exact .inr ⟨bytes, hsub hmem⟩

theorem lastPersisted_some {root : Block} {s0 : State} {log : List NodeAction} {h : Hash} {bytes : List UInt8}
    (hl : lastPersisted root s0 log h = some bytes) :
    NodeAction.persistSnapshot h bytes ∈ log ∨ h = root.hash ∧ bytes = s0.toBytes := by
  unfold lastPersisted at hl
  rcases Option.or_eq_some_iff.1 hl with hlog | ⟨-, hroot⟩
  · obtain ⟨a, ha, hsnap⟩ := List.mem_filterMap.1 (List.mem_of_getLast? hlog)
    rw [snapshotOf_eq_some hsnap] at ha
    exact .inl ha
  · split_ifs at hroot with hh
    exact .inr ⟨hh, (Option.some.inj hroot).symm⟩

theorem lastPersisted_ne_none {root : Block} {s0 : State} {log : List NodeAction} {h : Hash}
    (hp : Persisted root log h) : lastPersisted root s0 log h ≠ none := by
  intro hnone
  obtain ⟨hlog, hroot⟩ := Option.or_eq_none_iff.1 hnone
  rcases hp with hh | ⟨bytes, hmem⟩
  · rw [if_pos hh] at hroot
    cases hroot
  · have hin : bytes ∈ log.filterMap (NodeAction.snapshotOf h) :=
      List.mem_filterMap.2 ⟨_, hmem, by rw [NodeAction.snapshotOf, if_pos rfl]⟩
    rw [List.getLast?_eq_none_iff] at hlog
    rw [hlog] at hin
    cases hin

/-! ## The system -/

/-- a block stored under `h` -/
def InTree (e : NodeEngine) (h : Hash) : Prop := ∃ b, e.blockchain.blockAt h = some b

/-- the blocks parked under `h` -/
def NodeEngine.parkedUnder (e : NodeEngine) (h : Hash) : List ParkedBlock := e.pendingBlocks.getD h []

/-- importing `b` leaves no block parked under it behind: none is there, or `b` was in the tree before, or `b` becomes
head -/
def NoChildLeft (e : NodeEngine) (b : Block) : Prop :=
  e.parkedUnder b.hash = [] ∨ InTree e b.hash ∨
    ∀ latest, e.blockchain.getLatestBlock = .ok latest →
      shouldReplaceHead b.hash b latest e.blockchain.headHash = true

instance (e : NodeEngine) (h : Hash) : Decidable (InTree e h) :=
  decidable_of_iff ((e.blockchain.blockAt h).isSome = true) Option.isSome_iff_exists

instance (e : NodeEngine) (b : Block) : Decidable (NoChildLeft e b) := inferInstanceAs (Decidable (_ ∨ _))

/-- announcements of blocks of `U` and answers of storage, in any order. `answered` holds the places in the log of the
loads already answered; an answer is what had been persisted at some time after the load was asked. -/
inductive Delivery (C : NodeEngine → Block → Prop) (ck : OverflowChecks) (U : BlockUniverse) (root : Block) (s0 : State)
    (e0 : NodeEngine) : NodeEngine → List NodeAction → List Block → List ℕ → Prop
  | start : Delivery C ck U root s0 e0 e0 [] [] []
  | deliver {e e' : NodeEngine} {log acts : List NodeAction} {delivered : List Block} {answered : List ℕ} {peer : PeerId}
      {b : Block} (prev : Delivery C ck U root s0 e0 e log delivered answered) (mem : b ∈ U.blocks)
      (meets : e.StepMeets C ck (announce peer b)) (step : e.step ck (announce peer b) = .ok (e', acts)) :
      Delivery C ck U root s0 e0 e' (log ++ acts) (delivered ++ [b]) answered
  | answer {e e' : NodeEngine} {log acts : List NodeAction} {delivered : List Block} {answered : List ℕ} {h : Hash}
      {i n : ℕ} (prev : Delivery C ck U root s0 e0 e log delivered answered)
      (asked : log[i]? = some (.loadSnapshot h)) (unanswered : i ∉ answered) (later : i ≤ n)
      (meets : e.StepMeets C ck (.storageLoaded h (lastPersisted root s0 (log.take n) h)))
      (step : e.step ck (.storageLoaded h (lastPersisted root s0 (log.take n) h)) = .ok (e', acts)) :
      Delivery C ck U root s0 e0 e' (log ++ acts) delivered (answered ++ [i])

/-- every `LoadSnapshot` has been answered -/
def AllAnswered (log : List NodeAction) (answered : List ℕ) : Prop :=
  ∀ i h, log[i]? = some (NodeAction.loadSnapshot h) → i ∈ answered

/-- `h` is the hash of the maximum of the blocks under (height, slot, hash) -/
def IsMaximum (U : BlockUniverse) (h : Hash) : Prop :=
  ∃ b ∈ U.blocks, b.hash = h ∧ ∀ x ∈ U.blocks, rank x.hash x ≤ rank h b

theorem IsMaximum.unique {U : BlockUniverse} {h h' : Hash} (hm : IsMaximum U h) (hm' : IsMaximum U h') : h = h' := by
  obtain ⟨b, hb, rfl, hle⟩ := hm
  obtain ⟨b', hb', rfl, hle'⟩ := hm'
  have heq : rank b.hash b = rank b'.hash b' := le_antisymm (hle' b hb) (hle b' hb')
  exact congrArg (fun r => (ofLex (ofLex r).2).2) heq

/-! ## The invariant -/

/-- a load of `h` is open that was asked when `h` had been persisted -/
def Promised (root : Block) (answered : List ℕ) (log : List NodeAction) (h : Hash) : Prop :=
  ∃ i, i ∉ answered ∧ log[i]? = some (.loadSnapshot h) ∧ Persisted root (log.take i) h

theorem Promised.append {root : Block} {answered : List ℕ} {log : List NodeAction} {h : Hash} (acts : List NodeAction)
    (hp : Promised root answered log h) : Promised root answered (log ++ acts) h := by
  obtain ⟨i, hopen, hi, hpers⟩ := hp
  have hlt : i < log.length := (List.getElem?_eq_some_iff.1 hi).1
  refine ⟨i, hopen, ?_, ?_⟩
  · rw [List.getElem?_append_left hlt]
    exact hi
  · rw [List.take_append_of_le_length hlt.le]
    exact hpers

/-- the invariant with the blocks `l` in hand, but for the hashes `ex` -/
structure DeliveryInv (ck : OverflowChecks) (U : BlockUniverse) (root : Block) (s0 : State) (delivered : List Block)
    (answered : List ℕ) (ex : Set Hash) (l : List NodeEngine.Held) (e : NodeEngine) (log : List NodeAction) : Prop where
  ledger : LedgerInv ck U root s0 e log
  answered_lt : ∀ i ∈ answered, i < log.length
  persisted : ∀ h, InTree e h → Persisted root log h
  stored : ∀ h, Persisted root log h → InTree e h
  waiting : ∀ h ∉ ex, InTree e h → e.parkedUnder h ≠ [] → Promised root answered log h
  taken : ∀ b, .taken b ∈ l → InTree e b.previousHash
  kept : ∀ b ∈ delivered, InTree e b.hash ∨ (∃ p ∈ e.parkedUnder b.previousHash, p.block = b) ∨
    ∃ x ∈ l, x.block = b

section Invariant

variable {ck : OverflowChecks} {U : BlockUniverse} {root : Block} {s0 : State} {delivered : List Block}
  {answered : List ℕ} {ex : Set Hash} {l : List NodeEngine.Held} {e : NodeEngine} {log : List NodeAction}

theorem parkedUnder_park (e : NodeEngine) (peer : PeerId) (b : Block) (h : Hash) :
    (e.park peer b).parkedUnder h =
      if b.previousHash = h then e.parkedUnder h ++ [⟨peer, b⟩] else e.parkedUnder h := by
  unfold NodeEngine.parkedUnder NodeEngine.park
  rw [BTreeMap.getD_insert]
  split_ifs with hh
  · rw [hh]
  · rfl

theorem parkedUnder_take (e : NodeEngine) (h x : Hash) :
    NodeEngine.parkedUnder { e with pendingBlocks := e.pendingBlocks.remove h } x =
      if h = x then [] else e.parkedUnder x := by
  unfold NodeEngine.parkedUnder BTreeMap.getD
  rw [BTreeMap.get?_remove]
  split_ifs <;> rfl

/-- the tree only grows -/
theorem InTree.added {b : Block} {s : State} {bc : Blockchain} {imported : ImportedBlock}
    (hadd : Blockchain.Added ck e.blockchain b s bc imported) {h : Hash} (ht : InTree e h) :
    InTree { e with blockchain := bc } h := by
  obtain ⟨x, hx⟩ := ht
  exact ⟨x, (hadd.blocks h).trans (Blockchain.blockAfter_of_some b hx)⟩

theorem InTree.of_added {b : Block} {s : State} {bc : Blockchain} {imported : ImportedBlock}
    (hadd : Blockchain.Added ck e.blockchain b s bc imported) {h : Hash} (ht : InTree { e with blockchain := bc } h) :
    InTree e h ∨ h = b.hash := by
  obtain ⟨x, hx⟩ := ht
  rcases Blockchain.blockAfter_cases ((hadd.blocks h).symm.trans hx) with hold | ⟨-, hh, -⟩
  · exact .inl ⟨x, hold⟩
  · exact .inr hh

theorem InTree.self_added {b : Block} {s : State} {bc : Blockchain} {imported : ImportedBlock}
    (hadd : Blockchain.Added ck e.blockchain b s bc imported) : InTree { e with blockchain := bc } b.hash :=
  ⟨_, (hadd.blocks b.hash).trans (by rw [Blockchain.blockAfter, if_pos rfl])⟩

/-- actions that persist nothing, on the same ledger -/
theorem DeliveryInv.append {e' : NodeEngine} {acts : List NodeAction}
    (hI : DeliveryInv ck U root s0 delivered answered ex l e log) (hledger : LedgerInv ck U root s0 e' (log ++ acts))
    (hsame : e.SameLedger e') (hnone : ∀ h bytes, NodeAction.persistSnapshot h bytes ∉ acts) :
    DeliveryInv ck U root s0 delivered answered ex l e' (log ++ acts) := by
  have htree : ∀ h, InTree e' h ↔ InTree e h := fun h => by
    unfold InTree Blockchain.blockAt
    rw [hsame.chain]
  have hparked : ∀ h, e'.parkedUnder h = e.parkedUnder h := fun h => by
    unfold NodeEngine.parkedUnder
    rw [hsame.pending]
  refine ⟨hledger, fun i hi => ?_, fun h ht => ?_, fun h hp => ?_, fun h hex ht hne => ?_, fun b hb => ?_, fun b hb => ?_⟩
  · rw [List.length_append]
    exact Nat.lt_add_right _ (hI.answered_lt i hi)
  · exact (hI.persisted h ((htree h).1 ht)).mono (List.subset_append_left _ _)
  · refine (htree h).2 (hI.stored h ?_)
    rcases hp with hroot | ⟨bytes, hmem⟩
    · exact .inl hroot
    · exact .inr ⟨bytes, (List.mem_append.1 hmem).resolve_right (hnone h bytes)⟩
  · rw [hparked] at hne
    exact (hI.waiting h hex ((htree h).1 ht) hne).append acts
  · exact (htree _).2 (hI.taken b hb)
  · rw [htree, hparked]
    exact hI.kept b hb

/-- a valid block is not refused where its parent is in the tree with its state -/
theorem not_refused {bc : Blockchain} {b : Block} {s : State} {err : NodeError} (hroot : root ∈ U.blocks)
    (T : TreeInv ck U root s0 bc) (hs : StateAt ck U root s0 b.previousHash s) (hparent : ∃ p, bc.blockAt b.previousHash = some p)
    (hvalid : ∃ s', Derived ck U root s0 b s') (hne : b ≠ root) : bc.addBlock ck b s ≠ .ok (.error err) := by
  intro hrefused
  obtain ⟨s', hd⟩ := hvalid
  rcases Blockchain.addBlock_refused hrefused with hnone | ⟨p, verr, hp, hv⟩
  · obtain ⟨p, hp⟩ := hparent
    rw [hp] at hnone
    cases hnone
  · cases hd with
    | root => exact hne rfl
    | @child q _ sq _ hq hlq _ hacc =>
      have hstate : s = sq := hs.functional hroot ⟨q, hq, hlq.symm⟩
      have hu := U.unsigned_eq (hq.mem hroot) (T.mem hroot hp) (hlq.symm.trans (T.keys _ _ hp).symm)
      have hacc' := hacc.of_parent (height_eq_of_unsigned_eq hu) (slot_eq_of_unsigned_eq hu)
      rw [hstate, validate_ok_iff.2 hacc'] at hv
      cases hv

/-! ## Parking, taking, importing -/

namespace DeliveryInv

/-- what is received is parked, and the load that is asked for with it is the promise for its parent -/
theorem park {peer : PeerId} {b : Block}
    (hI : DeliveryInv ck U root s0 delivered answered ∅ (.received b :: l) e log)
    (hledger : LedgerInv ck U root s0 (e.park peer b) (log ++ [.loadSnapshot b.previousHash])) :
    DeliveryInv ck U root s0 delivered answered ∅ l (e.park peer b) (log ++ [.loadSnapshot b.previousHash]) := by
  refine ⟨hledger, fun i hi => ?_, fun h ht => ?_, fun h hp => ?_, fun h hex ht hne => ?_,
    fun x hx => hI.taken x (List.mem_cons_of_mem _ hx), fun x hx => ?_⟩
  · rw [List.length_append]
    exact Nat.lt_add_right _ (hI.answered_lt i hi)
  · exact (hI.persisted h ht).mono (List.subset_append_left _ _)
  · refine hI.stored h ?_
    rcases hp with h | ⟨bytes, hmem⟩
    · exact .inl h
    · exact .inr ⟨bytes, (List.mem_append.1 hmem).resolve_right (by simp)⟩
  · rw [parkedUnder_park] at hne
    split_ifs at hne with hh
    · subst hh
      refine ⟨log.length, fun hmem => lt_irrefl _ (hI.answered_lt _ hmem), by simp, ?_⟩
      rw [List.take_left]
      exact hI.persisted _ ht
    · exact (hI.waiting h hex ht hne).append _
  · rw [parkedUnder_park]
    rcases hI.kept x hx with htree | ⟨p, hp, hpx⟩ | ⟨y, hy, rfl⟩
    · exact .inl htree
    · refine .inr (.inl ⟨p, ?_, hpx⟩)
      split_ifs
      · exact List.mem_append_left _ hp
      · exact hp
    · rcases List.mem_cons.1 hy with rfl | hy
      · exact .inr (.inl ⟨⟨peer, b⟩, by simp [NodeEngine.Held.block], rfl⟩)
      · exact .inr (.inr ⟨y, hy, rfl⟩)

/-- the head is in the tree -/
theorem direct {b : Block} (hI : DeliveryInv ck U root s0 delivered answered ∅ (.received b :: l) e log)
    (hhead : e.blockchain.headHash = b.previousHash) :
    DeliveryInv ck U root s0 delivered answered ∅ (.taken b :: l) e log := by
  refine { hI with taken := fun x hx => ?_, kept := fun x hx => ?_ }
  · rcases List.mem_cons.1 hx with heq | hx
    · cases heq
      obtain ⟨head, hstored, -⟩ := hI.ledger.tree.head
      rw [hhead] at hstored
      exact ⟨head, hstored⟩
    · exact hI.taken x (List.mem_cons_of_mem _ hx)
  · rcases hI.kept x hx with htree | hparked | ⟨y, hy, rfl⟩
    · exact .inl htree
    · exact .inr (.inl hparked)
    · rcases List.mem_cons.1 hy with rfl | hy
      · exact .inr (.inr ⟨.taken b, List.mem_cons_self, rfl⟩)
      · exact .inr (.inr ⟨y, List.mem_cons_of_mem _ hy, rfl⟩)

/-- where nothing is parked, nothing has to be promised -/
theorem skip {h : Hash} (hI : DeliveryInv ck U root s0 delivered answered {h} l e log) (hnil : e.parkedUnder h = []) :
    DeliveryInv ck U root s0 delivered answered ∅ l e log := by
  refine { hI with waiting := fun x _ ht hne => ?_ }
  by_cases hh : x = h
  · subst hh
    exact absurd hnil hne
  · exact hI.waiting x hh ht hne

theorem take {h : Hash} {parked : List ParkedBlock}
    (hI : DeliveryInv ck U root s0 delivered answered {h} l e log) (htree : InTree e h)
    (hp : e.pendingBlocks.get? h = some parked)
    (hledger : LedgerInv ck U root s0 { e with pendingBlocks := e.pendingBlocks.remove h } log)
    (hprevious : ∀ p ∈ parked, p.block.previousHash = h) :
    DeliveryInv ck U root s0 delivered answered ∅ (parked.map (fun p => .taken p.block) ++ l)
      { e with pendingBlocks := e.pendingBlocks.remove h } log := by
  have hunder : e.parkedUnder h = parked := by rw [NodeEngine.parkedUnder, BTreeMap.getD, hp]; rfl
  refine ⟨hledger, hI.answered_lt, hI.persisted, hI.stored, fun x _ ht hne => ?_, fun b hb => ?_, fun b hb => ?_⟩
  · rw [parkedUnder_take] at hne
    split_ifs at hne with hh
    · exact absurd rfl hne
    · exact hI.waiting x (Ne.symm hh) ht hne
  · rcases List.mem_append.1 hb with hb | hb
    · obtain ⟨p, hpm, heq⟩ := List.mem_map.1 hb
      cases heq
      rw [hprevious p hpm]
      exact htree
    · exact hI.taken b hb
  · rw [parkedUnder_take]
    rcases hI.kept b hb with htree | ⟨p, hpm, rfl⟩ | ⟨y, hy, rfl⟩
    · exact .inl htree
    · split_ifs with hh
      · rw [← hh, hunder] at hpm
        exact .inr (.inr ⟨.taken p.block, List.mem_append_left _ (List.mem_map.2 ⟨p, hpm, rfl⟩), rfl⟩)
      · exact .inr (.inl ⟨p, hpm, rfl⟩)
    · exact .inr (.inr ⟨y, List.mem_append_right _ hy, rfl⟩)

/-- an imported block is persisted; only for the blocks parked under it nothing is promised yet -/
theorem added {b : Block} {s : State} {bc : Blockchain} {imported : ImportedBlock}
    (hI : DeliveryInv ck U root s0 delivered answered ∅ (.taken b :: l) e log)
    (hadded : Blockchain.Added ck e.blockchain b s bc imported)
    (hledger : LedgerInv ck U root s0 { e with blockchain := bc }
      (log ++ [.persistBlock b, .persistSnapshot b.hash imported.nextState.toBytes])) :
    DeliveryInv ck U root s0 delivered answered {b.hash} l { e with blockchain := bc }
      (log ++ [.persistBlock b, .persistSnapshot b.hash imported.nextState.toBytes]) := by
  have hself := InTree.self_added hadded
  refine ⟨hledger, fun i hi => ?_, fun h ht => ?_, fun h hp => ?_, fun h hex ht hne => ?_, fun x hx => ?_,
    fun x hx => ?_⟩
  · rw [List.length_append]
    exact Nat.lt_add_right _ (hI.answered_lt i hi)
  · rcases ht.of_added hadded with hold | rfl
    · exact (hI.persisted h hold).mono (List.subset_append_left _ _)
    · exact .inr ⟨imported.nextState.toBytes, by simp⟩
  · rcases hp with rfl | ⟨bytes, hmem⟩
    · exact (hI.stored _ (.inl rfl)).added hadded
    · rcases List.mem_append.1 hmem with hmem | hmem
      · exact (hI.stored h (.inr ⟨bytes, hmem⟩)).added hadded
      · simp only [List.mem_cons, reduceCtorEq, NodeAction.persistSnapshot.injEq, List.not_mem_nil, or_false,
          false_or] at hmem
        rw [hmem.1]
        exact hself
  · exact (hI.waiting h (Set.notMem_empty h) ((ht.of_added hadded).resolve_right hex) hne).append _
  · exact (hI.taken x (List.mem_cons_of_mem _ hx)).added hadded
  · rcases hI.kept x hx with htree | hparked | ⟨y, hy, rfl⟩
    · exact .inl (htree.added hadded)
    · exact .inr (.inl hparked)
    · rcases List.mem_cons.1 hy with rfl | hy
      · exact .inl hself
      · exact .inr (.inr ⟨y, hy, rfl⟩)

/-- a block that lost the fork choice has no children parked, or had been in the tree and they wait for a load -/
theorem added_lost {b : Block} {s : State} {bc : Blockchain} {imported : ImportedBlock}
    (hI : DeliveryInv ck U root s0 delivered answered ∅ (.taken b :: l) e log)
    (hadded : Blockchain.Added ck e.blockchain b s bc imported)
    (hledger : LedgerInv ck U root s0 { e with blockchain := bc }
      (log ++ [.persistBlock b, .persistSnapshot b.hash imported.nextState.toBytes]))
    (hleft : NoChildLeft e b) (hlost : imported.becameHead = false) :
    DeliveryInv ck U root s0 delivered answered ∅ l { e with blockchain := bc }
      (log ++ [.persistBlock b, .persistSnapshot b.hash imported.nextState.toBytes]) := by
  have hI' := hI.added hadded hledger
  refine { hI' with waiting := fun h _ ht hne => ?_ }
  by_cases hh : h = b.hash
  · subst hh
    rcases hleft with hnil | hold | hwins
    · exact absurd hnil hne
    · exact (hI.waiting _ (Set.notMem_empty _) hold hne).append _
    · obtain ⟨head, hhead, -⟩ := hI.ledger.tree.head
      obtain ⟨latest, hlatest, hchoice⟩ := hadded.choice
      rw [Blockchain.blockAfter_of_some b hhead] at hlatest
      cases hlatest
      rw [hlost, hwins head (Blockchain.getLatestBlock_ok_iff.2 hhead)] at hchoice
      cases hchoice
  · exact hI'.waiting h hh ht hne

/-- only the root can be refused -/
theorem refused {b : Block} {s : State} {err : NodeError} (hroot : root ∈ U.blocks)
    (hvalid : ∃ s', Derived ck U root s0 b s')
    (hI : DeliveryInv ck U root s0 delivered answered ∅ (.taken b :: l) e log)
    (hs : StateAt ck U root s0 b.previousHash s) (hrefused : e.blockchain.addBlock ck b s = .ok (.error err)) :
    DeliveryInv ck U root s0 delivered answered ∅ l e log := by
  refine { hI with taken := fun x hx => hI.taken x (List.mem_cons_of_mem _ hx), kept := fun x hx => ?_ }
  rcases hI.kept x hx with htree | hparked | ⟨y, hy, rfl⟩
  · exact .inl htree
  · exact .inr (.inl hparked)
  · rcases List.mem_cons.1 hy with rfl | hy
    · by_cases hbr : b = root
      · subst hbr
        exact .inl ⟨b, hI.ledger.tree.rootStored⟩
      · exact absurd hrefused (not_refused hroot hI.ledger.tree hs (hI.taken b List.mem_cons_self) hvalid hbr)
    · exact .inr (.inr ⟨y, hy, rfl⟩)

end DeliveryInv

/-- every part of a step keeps the delivered blocks -/
theorem deliveryRule (ck : OverflowChecks) (s0 : State) (hroot : root ∈ U.blocks)
    (hvalid : ∀ b ∈ U.blocks, ∃ s, Derived ck U root s0 b s) (delivered : List Block) (answered : List ℕ) :
    NodeEngine.EngineRule ck NoChildLeft (· ∈ U.blocks) (StateAt ck U root s0) (fun _ => True)
      (DeliveryInv ck U root s0 delivered answered ∅)
      (fun h l e log => DeliveryInv ck U root s0 delivered answered {h} l e log ∧ InTree e h) := by
  have L := ledgerRule ck s0 hroot
  exact {
    quiet := by
      intro l e e' log acts hI hsame hq
      exact hI.append (L.quiet (l := l) hI.ledger hsame hq) hsame (not_quiet_snapshot hq)
    note := by
      intro l e log m hI
      exact hI.append (L.note (l := l) hI.ledger) (NodeEngine.SameLedger.refl e) (by simp)
    report := by
      intro h l e log m hJ
      exact ⟨hJ.1.append (L.report (h := h) (l := l) hJ.1.ledger) (NodeEngine.SameLedger.refl e) (by simp), hJ.2⟩
    park := by
      intro l e log peer b hI hb hhead
      exact hI.park (L.park (l := l) hI.ledger hb hhead)
    direct := fun hI _ hhead => hI.direct hhead
    head := fun hI => hI.ledger.tree.state
    skip := fun hJ hnil => hJ.1.skip hnil
    take := by
      intro h l e log parked hJ hp
      obtain ⟨hledger, hparked⟩ := L.take (l := l) hJ.1.ledger hp
      exact ⟨hJ.1.take hJ.2 hp hledger fun p hpm => (hparked p hpm).2, hparked⟩
    add := by
      intro l e log b s bc imported hI hb hs hleft hadd
      obtain ⟨hknown, hledger, -⟩ := L.add (l := l) hI.ledger hb hs trivial hadd
      have hadded := Blockchain.addBlock_ok hadd
      exact ⟨hknown, ⟨hI.added hadded hledger, InTree.self_added hadded⟩, hI.added_lost hadded hledger hleft⟩
    refuse := by
      intro l e log b s err m hI hb hs hrefused
      exact (hI.refused hroot (hvalid b hb) hs hrefused).append (L.refuse (l := l) hI.ledger hb hs hrefused)
        (NodeEngine.SameLedger.refl e) (by simp)
    addFault := fun _ _ _ _ => trivial
    latestFault := fun _ _ => trivial
    serveFault := fun _ _ => trivial }

end Invariant

/-! ## Runs -/

section Runs

variable {ck : OverflowChecks} {U : BlockUniverse} {root : Block} {s0 : State} {delivered : List Block}
  {answered : List ℕ} {e e' : NodeEngine} {log acts : List NodeAction}

theorem DeliveryInv.deliver (hroot : root ∈ U.blocks) (hvalid : ∀ b ∈ U.blocks, ∃ s, Derived ck U root s0 b s)
    (hI : DeliveryInv ck U root s0 delivered answered ∅ [] e log) {peer : PeerId} {b : Block} (hb : b ∈ U.blocks)
    (hC : e.StepMeets NoChildLeft ck (announce peer b)) (hstep : e.step ck (announce peer b) = .ok (e', acts)) :
    DeliveryInv ck U root s0 (delivered ++ [b]) answered ∅ [] e' (log ++ acts) := by
  have R := deliveryRule ck s0 hroot hvalid (delivered ++ [b]) answered
  have hblocks : (announce peer b).blocks = [b] := announce_blocks peer (U.sized b hb)
  -- the step begins with the block in hand
  have hI' : DeliveryInv ck U root s0 (delivered ++ [b]) answered ∅ ((announce peer b).blocks.map .received ++ []) e log := by
    rw [hblocks]
    refine { hI with taken := fun x hx => ?_, kept := fun x hx => ?_ }
    · rcases List.mem_singleton.1 hx with heq
      cases heq
    · rcases List.mem_append.1 hx with hx | hx
      · rcases hI.kept x hx with htree | hparked | ⟨y, hy, -⟩
        · exact .inl htree
        · exact .inr (.inl hparked)
        · cases hy
      · rw [List.mem_singleton.1 hx]
        exact .inr (.inr ⟨.received b, List.mem_cons_self, rfl⟩)
  have hseen : ∀ x ∈ (announce peer b).blocks, x ∈ U.blocks := by
    intro x hx
    rw [hblocks, List.mem_singleton] at hx
    rw [hx]
    exact hb
  have hsafe := R.step_of_handle log (R.handle log hI' hseen hC fun _ _ h => nomatch h)
  rw [hstep] at hsafe
  exact hsafe

theorem DeliveryInv.answer (hroot : root ∈ U.blocks) (hvalid : ∀ b ∈ U.blocks, ∃ s, Derived ck U root s0 b s)
    (hfits : s0.Fits) (hI : DeliveryInv ck U root s0 delivered answered ∅ [] e log) {h : Hash} {i n : ℕ}
    (hasked : log[i]? = some (.loadSnapshot h)) (hlater : i ≤ n)
    (hC : e.StepMeets NoChildLeft ck (.storageLoaded h (lastPersisted root s0 (log.take n) h)))
    (hstep : e.step ck (.storageLoaded h (lastPersisted root s0 (log.take n) h)) = .ok (e', acts)) :
    DeliveryInv ck U root s0 delivered (answered ++ [i]) ∅ [] e' (log ++ acts) := by
  have R := deliveryRule ck s0 hroot hvalid delivered (answered ++ [i])
  have hlt : i < log.length := (List.getElem?_eq_some_iff.1 hasked).1
  -- answering `i` can break no promise but that of its own hash
  have hI' : DeliveryInv ck U root s0 delivered (answered ++ [i]) {h} [] e log := by
    refine { hI with answered_lt := fun j hj => ?_, waiting := fun x hx ht hne => ?_ }
    · rcases List.mem_append.1 hj with hj | hj
      · exact hI.answered_lt j hj
      · rw [List.mem_singleton.1 hj]
        exact hlt
    · obtain ⟨j, hopen, hj, hpers⟩ := hI.waiting x (Set.notMem_empty x) ht hne
      refine ⟨j, fun hmem => ?_, hj, hpers⟩
      rcases List.mem_append.1 hmem with hmem | hmem
      · exact hopen hmem
      · rw [List.mem_singleton.1 hmem, hasked] at hj
        cases hj
        exact hx rfl
  -- a persisted snapshot decodes to the state of its hash
  have hbytes : ∀ bytes, lastPersisted root s0 (log.take n) h = some bytes →
      InTree e h ∧ ∃ s, StateAt ck U root s0 h s ∧ State.fromBytes bytes = .ok (.ok s) := by
    intro bytes hlast
    rcases lastPersisted_some hlast with hmem | ⟨rfl, rfl⟩
    · have hmem := List.mem_of_mem_take hmem
      obtain ⟨s, hs, rfl⟩ := hI.ledger.snapshots h bytes hmem
      obtain ⟨b, hd, hbh⟩ := id hs
      have hround := fromBytes_toBytes (hd.fits hfits) []
      rw [List.append_nil] at hround
      exact ⟨hI.stored h (.inr ⟨_, hmem⟩), s, hs, hround⟩
    · have hround := fromBytes_toBytes hfits []
      rw [List.append_nil] at hround
      exact ⟨hI.stored _ (.inl rfl), s0, ⟨root, .root, rfl⟩, hround⟩
  have hhandle := R.loaded (l := []) (e := e) (h := h) log
    (fun hnil => ?_) (fun hnone => ?_) (fun b s hb hs => ?_) (fun b err hb hs => ?_) (fun _ _ _ _ => trivial) hC
  · have hsafe := R.step_of_handle log hhandle
    rw [hstep] at hsafe
    exact hsafe
  · -- nothing waits for the answer
    exact hI'.skip hnil
  · -- an answer without a state is not the promised one
    refine { hI' with waiting := fun x _ ht hne => ?_ }
    obtain ⟨j, hopen, hj, hpers⟩ := hI.waiting x (Set.notMem_empty x) ht hne
    refine ⟨j, fun hmem => ?_, hj, hpers⟩
    rcases List.mem_append.1 hmem with hmem | hmem
    · exact hopen hmem
    · rw [List.mem_singleton.1 hmem] at hj hpers
      rw [hasked] at hj
      cases hj
      have hsub : log.take i ⊆ log.take n := (List.take_prefix_take_left hlater).subset
      exact lastPersisted_ne_none (hpers.mono hsub) hnone
  · obtain ⟨htree, t, ht, hdec⟩ := hbytes b hb
    rw [hdec] at hs
    cases hs
    exact ⟨⟨hI', htree⟩, ht⟩
  · obtain ⟨-, t, -, hdec⟩ := hbytes b hb
    rw [hdec] at hs
    cases hs

theorem Delivery.inv {e0 : NodeEngine} (hroot : root ∈ U.blocks)
    (hvalid : ∀ b ∈ U.blocks, ∃ s, Derived ck U root s0 b s) (hstart : Start ck e0 root s0)
    (hfresh : e0.pendingBlocks = .empty) (hrun : Delivery NoChildLeft ck U root s0 e0 e log delivered answered) :
    DeliveryInv ck U root s0 delivered answered ∅ [] e log := by
  induction hrun with
  | start =>
    have hledger : LedgerInv ck U root s0 e0 [] := by
      refine ⟨hstart.tree U, fun h l hl => ?_, fun h bytes hmem => ?_⟩
      · rw [hfresh] at hl
        cases hl
      · cases hmem
    refine ⟨hledger, fun i hi => ?_, fun h ht => ?_, fun h hp => ?_, fun h _ _ hne => ?_, fun b hb => ?_, fun b hb => ?_⟩
    · cases hi
    · obtain ⟨b, hb⟩ := ht
      exact .inl (hstart.blockAt_start hb)
    · rcases hp with rfl | ⟨bytes, hmem⟩
      · exact ⟨root, (hstart.tree U).rootStored⟩
      · cases hmem
    · rw [NodeEngine.parkedUnder, hfresh] at hne
      exact absurd rfl hne
    · cases hb
    · cases hb
  | deliver _ hmem hmeets hstep ih => exact ih.deliver hroot hvalid hmem hmeets hstep
  | answer _ hasked _ hlater hmeets hstep ih => exact ih.answer hroot hvalid hstart.fits hasked hlater hmeets hstep

end Runs

/-- **Agreement of deliveries.** Let every block of `U` be valid on its parent's state, down to the root, and announce
blocks of `U` to a fresh engine in any order, with storage answering at any time. If no import leaves children behind,
then in every state with all loads answered no block is parked under a hash of the tree; and once all blocks were
delivered, all are in the tree and the head is the maximum of `U`, whatever the order was. -/
theorem delivery_agreement (ck : OverflowChecks) (U : BlockUniverse) (root : Block) (s0 : State) (e0 e : NodeEngine)
    (log : List NodeAction) (delivered : List Block) (answered : List ℕ) (hroot : root ∈ U.blocks)
    (hvalid : ∀ b ∈ U.blocks, ∃ s, Derived ck U root s0 b s) (hstart : Start ck e0 root s0)
    (hfresh : e0.pendingBlocks = .empty) (hrun : Delivery NoChildLeft ck U root s0 e0 e log delivered answered)
    (hquiet : AllAnswered log answered) :
    (∀ h, InTree e h → e.parkedUnder h = []) ∧
      ((∀ b ∈ U.blocks, b = root ∨ b ∈ delivered) →
        (∀ b ∈ U.blocks, InTree e b.hash) ∧ IsMaximum U e.blockchain.headHash ∧
          ∀ h, IsMaximum U h → h = e.blockchain.headHash) := by
  have hI := hrun.inv hroot hvalid hstart hfresh
  have hnone : ∀ h, InTree e h → e.parkedUnder h = [] := by
    intro h ht
    by_contra hne
    obtain ⟨i, hopen, hi, -⟩ := hI.waiting h (Set.notMem_empty h) ht hne
    exact hopen (hquiet i h hi)
  refine ⟨hnone, fun hall => ?_⟩
  have hin : ∀ b ∈ U.blocks, InTree e b.hash := by
    intro b hb
    obtain ⟨s, hd⟩ := hvalid b hb
    induction hd with
    | root => exact ⟨root, hI.ledger.tree.rootStored⟩
    | @child p b _ _ hp hlink hm _ ih =>
      have hparent : InTree e b.previousHash := by
        rw [hlink]
        exact ih (hp.mem hroot)
      rcases hall b hm with rfl | hdelivered
      · exact ⟨b, hI.ledger.tree.rootStored⟩
      · rcases hI.kept b hdelivered with htree | ⟨q, hq, -⟩ | ⟨x, hx, -⟩
        · exact htree
        · rw [hnone _ hparent] at hq
          cases hq
        · cases hx
  have hmax : IsMaximum U e.blockchain.headHash := by
    obtain ⟨head, hhead, hle⟩ := hI.ledger.tree.head
    refine ⟨head, hI.ledger.tree.mem hroot hhead, hI.ledger.tree.keys _ _ hhead, fun x hx => ?_⟩
    obtain ⟨y, hy⟩ := hin x hx
    -- the stored block of that hash ranks as `x`
    have hu := U.unsigned_eq (hI.ledger.tree.mem hroot hy) hx (hI.ledger.tree.keys _ _ hy)
    rw [← rank_congr hu]
    exact hle _ y hy
  exact ⟨hin, hmax, fun h hh => hh.unique hmax⟩

/-! ## Evaluating a delivery -/

inductive DeliveryEvent where
  | deliver (peer : PeerId) (b : Block)
  | answer (i : ℕ)

def DeliveryEvent.block? : DeliveryEvent → Option Block
  | .deliver _ b => some b
  | .answer _ => none

structure Delivered where
  engine : NodeEngine
  log : List NodeAction
  answered : List ℕ

/-- the delivery with the given events, storage carrying out its commands in order -/
def deliverOn (C : NodeEngine → Block → Prop) [∀ e b, Decidable (C e b)] (ck : OverflowChecks) (root : Block) (s0 : State) :
    Delivered → List DeliveryEvent → Option Delivered
  | d, [] => some d
  | d, .deliver peer b :: events =>
    if d.engine.StepMeets C ck (announce peer b) then
      match d.engine.step ck (announce peer b) with
      | .ok (e, acts) => deliverOn C ck root s0 ⟨e, d.log ++ acts, d.answered⟩ events
      | .error _ => none
    else none
  | d, .answer i :: events =>
    match d.log[i]? with
    | some (.loadSnapshot h) =>
      if i ∉ d.answered ∧ d.engine.StepMeets C ck (.storageLoaded h (lastPersisted root s0 (d.log.take i) h)) then
        match d.engine.step ck (.storageLoaded h (lastPersisted root s0 (d.log.take i) h)) with
        | .ok (e, acts) => deliverOn C ck root s0 ⟨e, d.log ++ acts, d.answered ++ [i]⟩ events
        | .error _ => none
      else none
    | _ => none

theorem Delivery.of_deliverOn {C : NodeEngine → Block → Prop} [∀ e b, Decidable (C e b)] {ck : OverflowChecks}
    {U : BlockUniverse} {root : Block} {s0 : State} {e0 : NodeEngine} (events : List DeliveryEvent) {d r : Delivered}
    {done : List Block} (hprev : Delivery C ck U root s0 e0 d.engine d.log done d.answered)
    (hmem : ∀ b ∈ events.filterMap DeliveryEvent.block?, b ∈ U.blocks) (h : deliverOn C ck root s0 d events = some r) :
    Delivery C ck U root s0 e0 r.engine r.log (done ++ events.filterMap DeliveryEvent.block?) r.answered := by
  induction events generalizing d done with
  | nil =>
    cases h
    rw [List.filterMap_nil, List.append_nil]
    exact hprev
  | cons event events ih =>
    rcases event with ⟨peer, b⟩ | i
    · rw [deliverOn] at h
      split_ifs at h with hmeets
      split at h
      · rename_i e acts hstep
        have hnext := ih (d := ⟨e, d.log ++ acts, d.answered⟩) (.deliver hprev (hmem b List.mem_cons_self) hmeets hstep)
          (fun x hx => hmem x (List.mem_cons_of_mem _ hx)) h
        rwa [List.append_assoc] at hnext
      · cases h
    · rw [deliverOn] at h
      split at h
      · rename_i x hasked
        split_ifs at h with hok
        split at h
        · rename_i e acts hstep
          exact ih (d := ⟨e, d.log ++ acts, d.answered ++ [i]⟩) (.answer hprev hasked hok.1 le_rfl hok.2 hstep) hmem h
        · cases h
      · cases h

/-- `AllAnswered`, evaluated -/
def allAnswered? (log : List NodeAction) (answered : List ℕ) : Bool :=
  (List.range log.length).all fun i =>
    match log[i]? with
    | some (.loadSnapshot _) => decide (i ∈ answered)
    | _ => true

theorem allAnswered_of_check {log : List NodeAction} {answered : List ℕ} (h : allAnswered? log answered = true) :
    AllAnswered log answered := by
  intro i x hi
  have hlt : i < log.length := (List.getElem?_eq_some_iff.1 hi).1
  have hcheck := List.all_eq_true.1 h i (List.mem_range.2 hlt)
  simp only [hi] at hcheck
  exact of_decide_eq_true hcheck

end Delivery

section Witness

open Sample

/-- a universe of listed blocks -/
def listed [Crypto] (bs : List Block) (hsized : ∀ b ∈ bs, b.Sized)
    (hc : ∀ a ∈ bs, ∀ b ∈ bs, a.hash = b.hash → a.toBytes = b.toBytes) : BlockUniverse :=
  ⟨{b | b ∈ bs}, hsized, hc⟩

theorem genesis_sized : genesis.Sized := by
  have hnil : (0 : ℕ) < 2 ^ 64 := by decide
  exact ⟨⟨hnil, trivial⟩, hnil, trivial⟩

def delivered₀ : Delivered := ⟨.new .new, [], []⟩

/-- a chain of three and a side block -/
def forked : BlockUniverse :=
  listed [genesis, m₁, m₂, m₃, n₂]
    (by
      intro b hb
      simp only [List.mem_cons, List.not_mem_nil, or_false] at hb
      rcases hb with rfl | rfl | rfl | rfl | rfl
      · exact genesis_sized
      all_goals exact emptyChild_sized _ _ _)
    (by decide +kernel)

theorem mem_forked {b : Block} : b ∈ forked.blocks ↔ b = genesis ∨ b = m₁ ∨ b = m₂ ∨ b = m₃ ∨ b = n₂ := by
  change b ∈ [genesis, m₁, m₂, m₃, n₂] ↔ _
  simp only [List.mem_cons, List.not_mem_nil, or_false]

theorem forked_valid : ∀ b ∈ forked.blocks, ∃ s, Derived .debug forked genesis State.new b s := by
  have h₁ : Derived .debug forked genesis State.new m₁ State.new :=
    .child .root rfl (mem_forked.2 (by simp)) (validate_ok_iff.1 (by decide +kernel))
  have h₂ : Derived .debug forked genesis State.new m₂ State.new :=
    .child h₁ rfl (mem_forked.2 (by simp)) (validate_ok_iff.1 (by decide +kernel))
  have h₃ : Derived .debug forked genesis State.new m₃ State.new :=
    .child h₂ rfl (mem_forked.2 (by simp)) (validate_ok_iff.1 (by decide +kernel))
  have hn : Derived .debug forked genesis State.new n₂ State.new :=
    .child h₁ rfl (mem_forked.2 (by simp)) (validate_ok_iff.1 (by decide +kernel))
  intro b hb
  rcases mem_forked.1 hb with rfl | rfl | rfl | rfl | rfl
  exacts [⟨_, .root⟩, ⟨_, h₁⟩, ⟨_, h₂⟩, ⟨_, h₃⟩, ⟨_, hn⟩]

/-- the chain arrives tip first, its loads are answered with nothing, and `m₁` takes the others along; then `n₂` comes -/
def tipFirst : List DeliveryEvent :=
  [.deliver peer m₃, .answer 0, .deliver peer m₂, .answer 4, .deliver peer m₁, .deliver peer n₂, .answer 14]

def agreed : Delivered :=
  (deliverOn NoChildLeft .debug genesis State.new delivered₀ tipFirst).get (by decide +kernel)

theorem delivery_agreement_tip_first :
    IsMaximum forked agreed.engine.blockchain.headHash ∧ agreed.engine.blockchain.headHash = m₃.hash := by
  have hrun : Delivery NoChildLeft .debug forked genesis State.new (.new .new) agreed.engine agreed.log
      ([] ++ [m₃, m₂, m₁, n₂]) agreed.answered := by
    refine Delivery.of_deliverOn tipFirst (d := delivered₀) .start (fun b hb => ?_) (Option.some_get _).symm
    change b ∈ [m₃, m₂, m₁, n₂] at hb
    simp only [List.mem_cons, List.not_mem_nil, or_false] at hb
    rcases hb with rfl | rfl | rfl | rfl <;> exact mem_forked.2 (by simp)
  have hall : ∀ b ∈ forked.blocks, b = genesis ∨ b ∈ [] ++ [m₃, m₂, m₁, n₂] := by
    intro b hb
    rcases mem_forked.1 hb with rfl | rfl | rfl | rfl | rfl
    · exact .inl rfl
    all_goals exact .inr (by simp)
  exact ⟨((delivery_agreement .debug forked genesis State.new (.new .new) agreed.engine agreed.log _
    agreed.answered (mem_forked.2 (.inl rfl)) forked_valid .new rfl hrun
    (allAnswered_of_check (by decide +kernel))).2 hall).2.1, by decide +kernel⟩

/-- a side branch tip first: `m₃` waits for `m₂`, which is imported from the parked blocks and loses against `n₂` -/
def sideTipFirst : List DeliveryEvent :=
  [.deliver peer m₁, .deliver peer n₂, .deliver peer m₃, .answer 6, .deliver peer m₂, .answer 10]

def left : Delivered :=
  (deliverOn (fun _ _ => True) .debug genesis State.new delivered₀ sideTipFirst).get (by decide +kernel)

/-- all loads are answered and all blocks delivered, and `m₃` stays parked under `m₂`, which is in the tree: the head is
`n₂`, and not the maximum -/
theorem side_branch_left_parked :
    (Delivery (fun _ _ => True) .debug forked genesis State.new (.new .new) left.engine left.log [m₁, n₂, m₃, m₂]
        left.answered ∧
      AllAnswered left.log left.answered ∧ (∀ b ∈ forked.blocks, b = genesis ∨ b ∈ [m₁, n₂, m₃, m₂]) ∧
      ∀ b ∈ forked.blocks, ∃ s, Derived .debug forked genesis State.new b s) ∧
    (InTree left.engine m₂.hash ∧ left.engine.parkedUnder m₂.hash ≠ []) ∧
    left.engine.blockchain.headHash = n₂.hash ∧ ¬ IsMaximum forked n₂.hash := by
  have hrun : Delivery (fun _ _ => True) .debug forked genesis State.new (.new .new) left.engine left.log
      ([] ++ [m₁, n₂, m₃, m₂]) left.answered := by
    refine Delivery.of_deliverOn sideTipFirst (d := delivered₀) .start (fun b hb => ?_)
      (Option.some_get _).symm
    change b ∈ [m₁, n₂, m₃, m₂] at hb
    simp only [List.mem_cons, List.not_mem_nil, or_false] at hb
    rcases hb with rfl | rfl | rfl | rfl <;> exact mem_forked.2 (by simp)
  refine ⟨⟨hrun, allAnswered_of_check (by decide +kernel), fun b hb => ?_, forked_valid⟩, by decide +kernel,
    by decide +kernel, fun hmax => ?_⟩
  · rcases mem_forked.1 hb with rfl | rfl | rfl | rfl | rfl
    · exact .inl rfl
    all_goals exact .inr (by simp)
  · have hm : IsMaximum forked m₃.hash := by
      refine ⟨m₃, mem_forked.2 (by simp), rfl, fun b hb => ?_⟩
      rcases mem_forked.1 hb with rfl | rfl | rfl | rfl | rfl <;> decide +kernel
    have hne : n₂.hash ≠ m₃.hash := by decide +kernel
    exact hne (hmax.unique hm)

end Witness

end RustProof
