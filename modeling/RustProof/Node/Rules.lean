/-
What a step of the engine can do, said once, as rules for invariants.

An invariant `I l e log` speaks of the engine, of all actions it has emitted, oldest first, and of the blocks `l` that a
step has in its hands: received, or taken from the parked ones, and not yet looked at. To know that a step keeps it,
it is enough to look at four things a step does to the ledger: park a block, take the blocks parked under a hash, import a
block on a state known to be its parent's, and everything else (`SameLedger` with `Quiet` actions). `EngineRule` collects
these obligations (`ImportRule` those of importing alone); `EngineRule.handle`, `EngineRule.loaded` and
`EngineRule.step_of_handle` are the whole steps.

Between the import of a block that became head and the import of the blocks parked under it, an invariant about parked
blocks is allowed to fail at that one hash: that is `J h`.

`StepMeets C` says that every import of a step met the condition `C`, on the engine as it was just before.
-/
import RustProof.Core.Panics
import RustProof.Node.Engine

namespace RustProof

variable [Crypto]

def NodeAction.isPersistBlock : NodeAction → Bool
  | .persistBlock _ => true
  | _ => false

/-- not a persist and not a load -/
def NodeAction.Quiet : NodeAction → Prop
  | .persistBlock _ | .persistSnapshot _ _ | .loadSnapshot _ => False
  | _ => True

namespace NodeEngine

/-! ## Conditions on the imports of a step -/

section Meets

variable (C : NodeEngine → Block → Prop) (ck : OverflowChecks)

/-- every import of `importEach` met `C` -/
def EachMeets (importChildren : NodeEngine → Hash → State → Except Fault (NodeEngine × List NodeAction))
    (childrenMeet : NodeEngine → Hash → State → Prop) (parentState : State) : List ParkedBlock → NodeEngine → Prop
  | [], _ => True
  | parked :: rest, e =>
    match e.blockchain.addBlock ck parked.block parentState with
    | .error _ => True
    | .ok (.error _) => EachMeets importChildren childrenMeet parentState rest e
    | .ok (.ok (blockchain, imported)) =>
      C e parked.block ∧
        if imported.becameHead then
          childrenMeet { e with blockchain := blockchain } parked.block.hash imported.nextState ∧
            ∀ e' children, importChildren { e with blockchain := blockchain } parked.block.hash imported.nextState =
              .ok (e', children) → EachMeets importChildren childrenMeet parentState rest e'
        else EachMeets importChildren childrenMeet parentState rest { e with blockchain := blockchain }

def ParkedMeets : (fuel : ℕ) → NodeEngine → Hash → State → Prop
  | 0, _, _, _ => True
  | fuel + 1, e, parentHash, parentState =>
    match e.pendingBlocks.get? parentHash with
    | none => True
    | some parkedBlocks =>
      EachMeets C ck (importParked ck fuel) (ParkedMeets fuel) parentState parkedBlocks
        { e with pendingBlocks := e.pendingBlocks.remove parentHash }

def IngestMeets (e : NodeEngine) (block : Block) : Prop :=
  e.blockchain.headHash = block.previousHash →
    ∀ blockchain imported, e.blockchain.addBlock ck block e.blockchain.state = .ok (.ok (blockchain, imported)) →
      C e block ∧ (imported.becameHead = true →
        ParkedMeets C ck (e.pendingBlocks.len + 1) { e with blockchain := blockchain } block.hash imported.nextState)

def IngestAllMeet (peer : PeerId) : List Block → NodeEngine → Prop
  | [], _ => True
  | block :: blocks, e =>
    IngestMeets C ck e block ∧
      ∀ e' actions, e.ingestBlock ck peer block = .ok (e', actions) → IngestAllMeet peer blocks e'

/-- every import of the step met `C` -/
def StepMeets (e : NodeEngine) : NodeInput → Prop
  | .frameReceived peer frame =>
    match NetworkMessage.fromBytes frame with
    | .ok (.announceRequest ⟨.newBlock block⟩) => IngestMeets C ck e block
    | .ok (.syncResponse response) =>
      IngestAllMeet C ck peer response.blocks
        { e with pendingRequests := e.pendingRequests.filter fun request => decide (request.peer ≠ peer) }
    | _ => True
  | .storageLoaded blockHash (some bytes) =>
    ∀ state, State.fromBytes bytes = .ok (.ok state) →
      ParkedMeets C ck (e.pendingBlocks.len + 1) e blockHash state
  | _ => True

variable {C ck}

theorem eachMeets_of_forall (hC : ∀ e b, C e b)
    {importChildren : NodeEngine → Hash → State → Except Fault (NodeEngine × List NodeAction)}
    {childrenMeet : NodeEngine → Hash → State → Prop} (hchildren : ∀ e h s, childrenMeet e h s) (s : State)
    (l : List ParkedBlock) (e : NodeEngine) : EachMeets C ck importChildren childrenMeet s l e := by
  induction l generalizing e with
  | nil => exact trivial
  | cons p l ih =>
    rw [EachMeets]
    split
    · exact trivial
    · exact ih e
    · refine ⟨hC _ _, ?_⟩
      split
      · exact ⟨hchildren _ _ _, fun e' _ _ => ih e'⟩
      · exact ih _

theorem parkedMeets_of_forall (hC : ∀ e b, C e b) (fuel : ℕ) (e : NodeEngine) (h : Hash) (s : State) :
    ParkedMeets C ck fuel e h s := by
  induction fuel generalizing e h s with
  | zero => exact trivial
  | succ fuel ih =>
    rw [ParkedMeets]
    split
    · exact trivial
    · exact eachMeets_of_forall hC ih s _ _

theorem ingestMeets_of_forall (hC : ∀ e b, C e b) (e : NodeEngine) (b : Block) : IngestMeets C ck e b :=
  fun _ _ _ _ => ⟨hC _ _, fun _ => parkedMeets_of_forall hC _ _ _ _⟩

theorem ingestAllMeet_of_forall (hC : ∀ e b, C e b) (peer : PeerId) (bs : List Block) (e : NodeEngine) :
    IngestAllMeet C ck peer bs e := by
  induction bs generalizing e with
  | nil => exact trivial
  | cons b bs ih => exact ⟨ingestMeets_of_forall hC e b, fun e' _ _ => ih e'⟩

/-- a condition that always holds is met by every step -/
theorem stepMeets_of_forall (hC : ∀ e b, C e b) (e : NodeEngine) (input : NodeInput) : StepMeets C ck e input := by
  unfold StepMeets
  split
  · split
    · exact ingestMeets_of_forall hC _ _
    · exact ingestAllMeet_of_forall hC _ _ _
    · exact trivial
  · exact fun s _ => parkedMeets_of_forall hC _ _ _ _
  · exact trivial

/-! Conditions that can be evaluated can be evaluated on a step. -/

section Decide

instance decidableOfOk {α : Type} (r : Except Fault α) (P : α → Prop) [∀ a, Decidable (P a)] :
    Decidable (∀ a, r = .ok a → P a) :=
  match r with
  | .error _ => isTrue fun _ h => nomatch h
  | .ok a => decidable_of_iff (P a) ⟨fun h _ heq => Except.ok.inj heq ▸ h, fun h => h a rfl⟩

variable [∀ e b, Decidable (C e b)]

def decideEach {importChildren : NodeEngine → Hash → State → Except Fault (NodeEngine × List NodeAction)}
    {childrenMeet : NodeEngine → Hash → State → Prop} [∀ e h s, Decidable (childrenMeet e h s)] (parentState : State) :
    (l : List ParkedBlock) → (e : NodeEngine) →
      Decidable (EachMeets C ck importChildren childrenMeet parentState l e)
  | [], _ => isTrue trivial
  | parked :: rest, e =>
    have : ∀ e, Decidable (EachMeets C ck importChildren childrenMeet parentState rest e) := decideEach parentState rest
    match h : e.blockchain.addBlock ck parked.block parentState with
    | .error _ => isTrue (by rw [EachMeets, h]; trivial)
    | .ok (.error _) => decidable_of_iff (EachMeets C ck importChildren childrenMeet parentState rest e)
        (by rw [EachMeets, h])
    | .ok (.ok (blockchain, imported)) => decidable_of_iff
        (C e parked.block ∧
          if imported.becameHead then
            childrenMeet { e with blockchain := blockchain } parked.block.hash imported.nextState ∧
              ∀ r, importChildren { e with blockchain := blockchain } parked.block.hash imported.nextState = .ok r →
                EachMeets C ck importChildren childrenMeet parentState rest r.1
          else EachMeets C ck importChildren childrenMeet parentState rest { e with blockchain := blockchain })
        (by rw [EachMeets, h]; simp only [Prod.forall])

def decideParked : (fuel : ℕ) → (e : NodeEngine) → (h : Hash) → (s : State) → Decidable (ParkedMeets C ck fuel e h s)
  | 0, _, _, _ => isTrue trivial
  | fuel + 1, e, parentHash, parentState =>
    have : ∀ e h s, Decidable (ParkedMeets C ck fuel e h s) := decideParked fuel
    match h : e.pendingBlocks.get? parentHash with
    | none => isTrue (by rw [ParkedMeets, h]; trivial)
    | some parkedBlocks =>
      have : Decidable (EachMeets C ck (importParked ck fuel) (ParkedMeets C ck fuel) parentState parkedBlocks
          { e with pendingBlocks := e.pendingBlocks.remove parentHash }) := decideEach parentState parkedBlocks _
      decidable_of_iff (EachMeets C ck (importParked ck fuel) (ParkedMeets C ck fuel) parentState parkedBlocks
        { e with pendingBlocks := e.pendingBlocks.remove parentHash }) (by rw [ParkedMeets, h])

instance (fuel : ℕ) (e : NodeEngine) (h : Hash) (s : State) : Decidable (ParkedMeets C ck fuel e h s) :=
  decideParked fuel e h s

instance (e : NodeEngine) (b : Block) : Decidable (IngestMeets C ck e b) :=
  match h : e.blockchain.addBlock ck b e.blockchain.state with
  | .error _ | .ok (.error _) => isTrue fun _ _ _ heq => nomatch h.symm.trans heq
  | .ok (.ok (blockchain, imported)) => decidable_of_iff
      (e.blockchain.headHash = b.previousHash → C e b ∧ (imported.becameHead = true →
        ParkedMeets C ck (e.pendingBlocks.len + 1) { e with blockchain := blockchain } b.hash imported.nextState))
      ⟨fun hm hhead bc im heq => by cases h.symm.trans heq; exact hm hhead, fun hm hhead => hm hhead _ _ h⟩

def decideIngestAll (peer : PeerId) : (bs : List Block) → (e : NodeEngine) → Decidable (IngestAllMeet C ck peer bs e)
  | [], _ => isTrue trivial
  | b :: bs, e =>
    have : ∀ e, Decidable (IngestAllMeet C ck peer bs e) := decideIngestAll peer bs
    decidable_of_iff (IngestMeets C ck e b ∧ ∀ r, e.ingestBlock ck peer b = .ok r → IngestAllMeet C ck peer bs r.1)
      (by rw [IngestAllMeet]; simp only [Prod.forall])

instance (peer : PeerId) (bs : List Block) (e : NodeEngine) : Decidable (IngestAllMeet C ck peer bs e) :=
  decideIngestAll peer bs e

instance (e : NodeEngine) (input : NodeInput) : Decidable (StepMeets C ck e input) :=
  match input with
  | .frameReceived peer frame =>
    match h : NetworkMessage.fromBytes frame with
    | .ok (.announceRequest ⟨.newBlock block⟩) =>
      decidable_of_iff (IngestMeets C ck e block) (by simp only [StepMeets, h])
    | .ok (.syncResponse response) =>
      decidable_of_iff (IngestAllMeet C ck peer response.blocks
        { e with pendingRequests := e.pendingRequests.filter fun request => decide (request.peer ≠ peer) })
        (by simp only [StepMeets, h])
    | .ok (.announceRequest ⟨.newTransaction _⟩) | .ok (.syncRequest _) | .ok (.announceResponse _) | .error _ =>
      isTrue (by simp only [StepMeets, h])
  | .storageLoaded blockHash (some bytes) =>
    match h : State.fromBytes bytes with
    | .error _ | .ok (.error _) => isTrue fun _ heq => nomatch h.symm.trans heq
    | .ok (.ok state) => decidable_of_iff (ParkedMeets C ck (e.pendingBlocks.len + 1) e blockHash state)
        ⟨fun hm s heq => by cases h.symm.trans heq; exact hm, fun hm => hm state h⟩
  | .storageLoaded _ none | .tick _ | .peerConnected _ | .peerDisconnected _ | .localTransactionSubmitted _
  | .persistCompleted _ | .importRequested _ _ _ => isTrue trivial

end Decide

end Meets

/-! ## Everything else -/

/-- block tree, head, state and parked blocks are the same -/
structure SameLedger (e e' : NodeEngine) : Prop where
  chain : e'.blockchain.chain = e.blockchain.chain
  head : e'.blockchain.headHash = e.blockchain.headHash
  state : e'.blockchain.state = e.blockchain.state
  pending : e'.pendingBlocks = e.pendingBlocks

theorem SameLedger.refl (e : NodeEngine) : SameLedger e e := ⟨rfl, rfl, rfl, rfl⟩

theorem SameLedger.trans {e e' e'' : NodeEngine} (h : SameLedger e e') (h' : SameLedger e' e'') : SameLedger e e'' :=
  ⟨h'.chain.trans h.chain, h'.head.trans h.head, h'.state.trans h.state, h'.pending.trans h.pending⟩

/-! ## The obligations -/

/-- a block a step has in its hands: received, or about to be imported on a parent in the tree -/
inductive Held where
  | received (b : Block)
  | taken (b : Block)

def Held.block : Held → Block
  | .received b | .taken b => b

/-- where the engine and its log stand while blocks are imported: `I l` with the blocks `l` in hand, `J h l` with moreover
the blocks parked under `h` not yet looked at -/
structure ImportRule (ck : OverflowChecks) (C : NodeEngine → Block → Prop) (Seen : Block → Prop)
    (Known : Hash → State → Prop) (F : Fault → Prop) (I : List Held → NodeEngine → List NodeAction → Prop)
    (J : Hash → List Held → NodeEngine → List NodeAction → Prop) : Prop where
  note : ∀ {l e log m}, I l e log → I l e (log ++ [.reportEvent m])
  /-- a report between an import and the blocks parked under it -/
  report : ∀ {h l e log m}, J h l e log → J h l e (log ++ [.reportEvent m])
  park : ∀ {l e log peer b}, I (.received b :: l) e log → Seen b → e.blockchain.headHash ≠ b.previousHash →
    I l (e.park peer b) (log ++ [.loadSnapshot b.previousHash])
  /-- a received block whose parent is the head -/
  direct : ∀ {l e log b}, I (.received b :: l) e log → Seen b → e.blockchain.headHash = b.previousHash →
    I (.taken b :: l) e log
  /-- the head's state is known -/
  head : ∀ {l e log}, I l e log → Known e.blockchain.headHash e.blockchain.state
  /-- nothing is parked there -/
  skip : ∀ {h l e log}, J h l e log → e.pendingBlocks.getD h [] = [] → I l e log
  take : ∀ {h l e log parked}, J h l e log → e.pendingBlocks.get? h = some parked →
    I (parked.map (fun p => .taken p.block) ++ l) { e with pendingBlocks := e.pendingBlocks.remove h } log ∧
      ∀ p ∈ parked, Seen p.block ∧ p.block.previousHash = h
  add : ∀ {l e log b s bc imported}, I (.taken b :: l) e log → Seen b → Known b.previousHash s → C e b →
    e.blockchain.addBlock ck b s = .ok (.ok (bc, imported)) →
    Known b.hash imported.nextState ∧
      J b.hash l { e with blockchain := bc }
        (log ++ [.persistBlock b, .persistSnapshot b.hash imported.nextState.toBytes]) ∧
      (imported.becameHead = false → I l { e with blockchain := bc }
        (log ++ [.persistBlock b, .persistSnapshot b.hash imported.nextState.toBytes]))
  refuse : ∀ {l e log b s err m}, I (.taken b :: l) e log → Seen b → Known b.previousHash s →
    e.blockchain.addBlock ck b s = .ok (.error err) → I l e (log ++ [.reportEvent m])
  addFault : ∀ {l e log b s f}, I (.taken b :: l) e log → Seen b → Known b.previousHash s →
    e.blockchain.addBlock ck b s = .error f → F f

/-- the obligations for whole steps -/
structure EngineRule (ck : OverflowChecks) (C : NodeEngine → Block → Prop) (Seen : Block → Prop)
    (Known : Hash → State → Prop) (F : Fault → Prop) (I : List Held → NodeEngine → List NodeAction → Prop)
    (J : Hash → List Held → NodeEngine → List NodeAction → Prop) : Prop extends ImportRule ck C Seen Known F I J where
  /-- everything that leaves the ledger alone -/
  quiet : ∀ {l e e' log acts}, I l e log → SameLedger e e' → (∀ a ∈ acts, NodeAction.Quiet a) → I l e' (log ++ acts)
  latestFault : ∀ {l e log f}, I l e log → e.blockchain.getLatestBlock = .error f → F f
  serveFault : ∀ {l e log request f}, I l e log → e.syncResponse request = .error f → F f

namespace ImportRule

variable {ck : OverflowChecks} {C : NodeEngine → Block → Prop} {Seen : Block → Prop} {Known : Hash → State → Prop}
  {F : Fault → Prop} {I : List Held → NodeEngine → List NodeAction → Prop}
  {J : Hash → List Held → NodeEngine → List NodeAction → Prop} {l : List Held}

/-- the invariant behind `log`, and no more parked hashes than before -/
def Keeps (I : NodeEngine → List NodeAction → Prop) (log : List NodeAction) (n : ℕ) (r : NodeEngine × List NodeAction) :
    Prop := I r.1 (log ++ r.2) ∧ r.1.pendingBlocks.len ≤ n

/-! ## The recursive import -/

theorem importEach (R : ImportRule ck C Seen Known F I J) {n : ℕ}
    {importChildren : NodeEngine → Hash → State → Except Fault (NodeEngine × List NodeAction)}
    {childrenMeet : NodeEngine → Hash → State → Prop}
    (ih : ∀ l e h s log, J h l e log → Known h s → childrenMeet e h s → e.pendingBlocks.len ≤ n →
      Safe F (Keeps (I l) log e.pendingBlocks.len) (importChildren e h s))
    {h : Hash} {s : State} (hs : Known h s) (ps : List ParkedBlock) (e : NodeEngine) (log : List NodeAction)
    (hps : ∀ p ∈ ps, Seen p.block ∧ p.block.previousHash = h) (hI : I (ps.map (fun p => .taken p.block) ++ l) e log)
    (hn : e.pendingBlocks.len ≤ n) (hC : EachMeets C ck importChildren childrenMeet s ps e) :
    Safe F (Keeps (I l) log e.pendingBlocks.len) (NodeEngine.importEach ck importChildren s ps e) := by
  induction ps generalizing e log with
  | nil => exact ⟨by rwa [List.append_nil], le_rfl⟩
  | cons p ps il =>
    have hrest : ∀ q ∈ ps, Seen q.block ∧ q.block.previousHash = h := fun q hq => hps q (List.mem_cons_of_mem _ hq)
    obtain ⟨hseen, hprev⟩ := hps p List.mem_cons_self
    have hknown : Known p.block.previousHash s := hprev ▸ hs
    rw [NodeEngine.importEach]
    rw [EachMeets] at hC
    split
    · rename_i f hadd
      exact R.addFault hI hseen hknown hadd
    · rename_i err hadd
      rw [hadd] at hC
      have hI' := R.refuse hI hseen hknown hadd (m := "failed importing parked block")
      refine (il e _ hrest hI' hn hC).bind fun r hr _ => ?_
      refine ⟨?_, hr.2⟩
      simpa using hr.1
    · rename_i bc imported hadd
      rw [hadd] at hC
      obtain ⟨hc, hC⟩ := hC
      obtain ⟨hnext, hJ, hlost⟩ := R.add hI hseen hknown hc hadd
      -- the blocks parked under `p`, if `p` became head
      have hchildren : Safe F (fun r => Keeps (I (ps.map (fun p => .taken p.block) ++ l)) (log ++ [.persistBlock p.block,
            .persistSnapshot p.block.hash imported.nextState.toBytes]) e.pendingBlocks.len r ∧
            EachMeets C ck importChildren childrenMeet s ps r.1)
          (importIfHead importChildren { e with blockchain := bc } p.block.hash imported) := by
        unfold importIfHead
        cases hb : imported.becameHead with
        | false =>
          rw [hb] at hC
          exact ⟨⟨by simpa using hlost hb, le_rfl⟩, hC⟩
        | true =>
          rw [hb] at hC
          have hrec := ih _ _ _ _ _ hJ hnext hC.1 hn
          rw [if_pos rfl]
          cases hres : importChildren { e with blockchain := bc } p.block.hash imported.nextState with
          | error f => rw [hres] at hrec; exact hrec
          | ok r => rw [hres] at hrec; exact ⟨hrec, hC.2 r.1 r.2 hres⟩
      refine hchildren.bind fun r hr _ => ?_
      refine (il r.1 _ hrest hr.1.1 (hr.1.2.trans hn) hr.2).bind fun r' hr' _ => ?_
      refine ⟨?_, hr'.2.trans hr.1.2⟩
      simpa using hr'.1

theorem importParked (R : ImportRule ck C Seen Known F I J) (fuel : ℕ) (e : NodeEngine) (h : Hash) (s : State)
    (log : List NodeAction) (hJ : J h l e log) (hs : Known h s) (hC : ParkedMeets C ck fuel e h s)
    (hfuel : e.pendingBlocks.len < fuel) :
    Safe F (Keeps (I l) log e.pendingBlocks.len) (NodeEngine.importParked ck fuel e h s) := by
  induction fuel generalizing l e h s log with
  | zero => omega
  | succ fuel ih =>
    rw [NodeEngine.importParked]
    rw [ParkedMeets] at hC
    cases hp : e.pendingBlocks.get? h with
    | none =>
      have hI := R.skip hJ (by rw [BTreeMap.getD, hp]; rfl)
      exact ⟨by rwa [List.append_nil], le_rfl⟩
    | some parked =>
      rw [hp] at hC
      obtain ⟨hI, hps⟩ := R.take hJ hp
      have hlen := BTreeMap.len_remove hp
      -- one key is gone, so the nested calls have fuel for the rest
      have hrec : ∀ l' e' h' s' log', J h' l' e' log' → Known h' s' → ParkedMeets C ck fuel e' h' s' →
          e'.pendingBlocks.len ≤ fuel - 1 →
          Safe F (Keeps (I l') log' e'.pendingBlocks.len) (NodeEngine.importParked ck fuel e' h' s') :=
        fun l' e' h' s' log' hJ' hs' hC' hn' => ih e' h' s' log' hJ' hs' hC' (by omega)
      have hmain := R.importEach hrec hs parked { e with pendingBlocks := e.pendingBlocks.remove h } log hps hI
        (by simp only; omega) hC
      simp only at hmain ⊢
      cases hres : NodeEngine.importEach ck (NodeEngine.importParked ck fuel) s parked
          { e with pendingBlocks := e.pendingBlocks.remove h } with
      | error f => rw [hres] at hmain; exact hmain
      | ok r =>
        rw [hres] at hmain
        have hle : r.1.pendingBlocks.len ≤ (e.pendingBlocks.remove h).len := hmain.2
        exact ⟨hmain.1, by omega⟩

theorem importParkedBlocks (R : ImportRule ck C Seen Known F I J) {e : NodeEngine} {h : Hash} {s : State}
    {log : List NodeAction} (hJ : J h l e log) (hs : Known h s)
    (hC : ParkedMeets C ck (e.pendingBlocks.len + 1) e h s) :
    Safe F (fun r => I l r.1 (log ++ r.2)) (NodeEngine.importParkedBlocks ck e h s) := by
  have hmain := R.importParked _ e h s log hJ hs hC (Nat.lt_succ_self _)
  unfold NodeEngine.importParkedBlocks
  cases hres : NodeEngine.importParked ck (e.pendingBlocks.len + 1) e h s with
  | error f => rw [hres] at hmain; exact hmain
  | ok r => rw [hres] at hmain; exact hmain.1

/-! ## The other parts of a step -/

theorem ingestBlock (R : ImportRule ck C Seen Known F I J) {e : NodeEngine} {log : List NodeAction} (peer : PeerId)
    {b : Block} (hI : I (.received b :: l) e log) (hb : Seen b) (hC : IngestMeets C ck e b) :
    Safe F (fun r => I l r.1 (log ++ r.2)) (e.ingestBlock ck peer b) := by
  unfold NodeEngine.ingestBlock
  split_ifs with hhead
  · have hknown : Known b.previousHash e.blockchain.state := hhead ▸ R.head hI
    have hI := R.direct hI hb hhead
    split
    · rename_i f hadd
      exact R.addFault hI hb hknown hadd
    · rename_i err hadd
      exact R.refuse hI hb hknown hadd
    · rename_i bc imported hadd
      obtain ⟨hc, hC⟩ := hC hhead bc imported hadd
      obtain ⟨hnext, hJ, hlost⟩ := R.add hI hb hknown hc hadd
      have hchildren : Safe F (fun r => I l r.1 (log ++ [.persistBlock b,
            .persistSnapshot b.hash imported.nextState.toBytes] ++ [.reportEvent "Block added"] ++ r.2))
          (importIfHead (NodeEngine.importParkedBlocks ck) { e with blockchain := bc } b.hash imported) := by
        unfold importIfHead
        cases hbecame : imported.becameHead with
        | false =>
          rw [if_neg (by simp)]
          have := R.note (hlost hbecame) (m := "Block added")
          simpa [Safe] using this
        | true => exact R.importParkedBlocks (R.report hJ) hnext (hC hbecame)
      refine hchildren.bind fun r hr _ => ?_
      simp only [List.append_assoc, List.cons_append, List.nil_append] at hr
      exact hr
  · exact R.park hI hb hhead

theorem ingestBlocks (R : ImportRule ck C Seen Known F I J) (peer : PeerId) (bs : List Block) (e : NodeEngine)
    (log : List NodeAction) (hI : I (bs.map .received ++ l) e log) (hb : ∀ b ∈ bs, Seen b) (hC : IngestAllMeet C ck peer bs e) :
    Safe F (fun r => I l r.1 (log ++ r.2)) (NodeEngine.ingestBlocks ck peer bs e) := by
  induction bs generalizing e log with
  | nil => simpa [NodeEngine.ingestBlocks, Safe] using hI
  | cons b bs ih =>
    rw [NodeEngine.ingestBlocks]
    refine (R.ingestBlock peer hI (hb b List.mem_cons_self) hC.1).bind fun r hr hres => ?_
    have htail := ih r.1 (log ++ r.2) hr (fun x hx => hb x (List.mem_cons_of_mem _ hx)) (hC.2 r.1 r.2 hres)
    refine htail.bind fun r' hr' _ => ?_
    rw [List.append_assoc] at hr'
    exact hr'

end ImportRule

/-! ## Quiet parts -/

theorem queueBlockRequest_same (e : NodeEngine) (peer : PeerId) (a b : UInt64) :
    SameLedger e (e.queueBlockRequest peer a b).1 := ⟨rfl, rfl, rfl, rfl⟩

theorem continueRequest_quiet (e : NodeEngine) (request : PendingRequest) (nextHeight : UInt64) :
    SameLedger e (e.continueRequest request nextHeight).1 ∧
      ∀ a ∈ (e.continueRequest request nextHeight).2, NodeAction.Quiet a := by
  unfold continueRequest
  split_ifs
  · exact ⟨SameLedger.refl e, by simp⟩
  · exact ⟨queueBlockRequest_same _ _ _ _, by simp [queueBlockRequest, NodeAction.Quiet]⟩
  · exact ⟨queueBlockRequest_same _ _ _ _, by simp [queueBlockRequest, NodeAction.Quiet]⟩

theorem continueRequests_quiet (nextHeight : UInt64) (requests : List PendingRequest) (e : NodeEngine) :
    SameLedger e (continueRequests nextHeight requests e).1 ∧
      ∀ a ∈ (continueRequests nextHeight requests e).2, NodeAction.Quiet a := by
  induction requests generalizing e with
  | nil => exact ⟨SameLedger.refl e, by simp [continueRequests]⟩
  | cons request requests ih =>
    obtain ⟨h1, h2⟩ := continueRequest_quiet e request nextHeight
    obtain ⟨h3, h4⟩ := ih (e.continueRequest request nextHeight).1
    refine ⟨h1.trans h3, fun a ha => ?_⟩
    rcases List.mem_append.1 ha with ha | ha
    · exact h2 a ha
    · exact h4 a ha

theorem addTransaction_same (e : NodeEngine) {bc : Blockchain} {tx : Transaction} {added : Bool}
    (h : e.blockchain.addTransaction tx = .ok (bc, added)) : SameLedger e { e with blockchain := bc } := by
  unfold Blockchain.addTransaction at h
  split_ifs at h
  cases hm : e.blockchain.mempool.addTransaction tx with
  | error err => rw [hm] at h; cases h
  | ok r => rw [hm] at h; cases h; exact ⟨rfl, rfl, rfl, rfl⟩

theorem announceTransaction_quiet (e : NodeEngine) (peer : PeerId) (tx : Transaction) :
    SameLedger e (e.announceTransaction peer tx).1 ∧ ∀ a ∈ (e.announceTransaction peer tx).2, NodeAction.Quiet a := by
  unfold announceTransaction
  cases h : e.blockchain.addTransaction tx with
  | error err => exact ⟨SameLedger.refl e, by simp [NodeAction.Quiet]⟩
  | ok r =>
    refine ⟨addTransaction_same e h, fun a ha => ?_⟩
    simp only at ha
    split_ifs at ha
    · obtain ⟨p, -, rfl⟩ := List.mem_map.1 ha
      exact trivial
    · cases ha

theorem submitTransaction_quiet (e : NodeEngine) (tx : Transaction) :
    SameLedger e (e.submitTransaction tx).1 ∧ ∀ a ∈ (e.submitTransaction tx).2, NodeAction.Quiet a := by
  unfold submitTransaction
  cases h : e.blockchain.addTransaction tx with
  | error err => exact ⟨SameLedger.refl e, by simp [NodeAction.Quiet]⟩
  | ok r =>
    refine ⟨addTransaction_same e h, fun a ha => ?_⟩
    simp only at ha
    split_ifs at ha
    · rw [List.mem_singleton.1 ha]
      exact trivial
    · cases ha

theorem syncWakeAction_quiet (e : NodeEngine) :
    SameLedger e e.syncWakeAction.1 ∧ ∀ a ∈ e.syncWakeAction.2, NodeAction.Quiet a := by
  unfold syncWakeAction
  split_ifs
  · exact ⟨SameLedger.refl e, by simp⟩
  · refine ⟨⟨rfl, rfl, rfl, rfl⟩, ?_⟩
    cases e.nextWakeAtMs <;> simp [NodeAction.Quiet]

end NodeEngine

/-! ## Whole steps -/

/-- the blocks an input brings -/
def NodeInput.blocks : NodeInput → List Block
  | .frameReceived _ frame =>
    match NetworkMessage.fromBytes frame with
    | .ok (.announceRequest ⟨.newBlock block⟩) => [block]
    | .ok (.syncResponse response) => response.blocks
    | _ => []
  | _ => []

namespace NodeEngine.EngineRule

variable {ck : OverflowChecks} {C : NodeEngine → Block → Prop} {Seen : Block → Prop} {Known : Hash → State → Prop}
  {F : Fault → Prop} {I : List Held → NodeEngine → List NodeAction → Prop}
  {J : Hash → List Held → NodeEngine → List NodeAction → Prop} {l : List Held}

theorem handleSyncResponse (R : EngineRule ck C Seen Known F I J) {e : NodeEngine} {log : List NodeAction}
    (peer : PeerId) (response : SyncResponse) (hI : I (response.blocks.map .received ++ l) e log)
    (hb : ∀ b ∈ response.blocks, Seen b)
    (hC : IngestAllMeet C ck peer response.blocks
      { e with pendingRequests := e.pendingRequests.filter fun request => decide (request.peer ≠ peer) }) :
    Safe F (fun r => I l r.1 (log ++ r.2)) (e.handleSyncResponse ck peer response) := by
  have hstart : I (response.blocks.map .received ++ l)
      { e with pendingRequests := e.pendingRequests.filter fun request => decide (request.peer ≠ peer) } (log ++ []) :=
    R.quiet hI ⟨rfl, rfl, rfl, rfl⟩ (by simp)
  rw [List.append_nil] at hstart
  unfold NodeEngine.handleSyncResponse
  refine (R.ingestBlocks peer response.blocks _ log hstart hb hC).bind fun r hr _ => ?_
  -- an answer without any action is acknowledged, which is as quiet as no action
  have hack : ∀ {e' : NodeEngine} {acts : List NodeAction}, I l e' (log ++ acts) →
      I l e' (log ++ if acts.isEmpty then [.frameReceived peer] else acts) := by
    intro e' acts h
    cases acts with
    | nil =>
      have : I l e' (log ++ [] ++ [.frameReceived peer]) := R.quiet h (SameLedger.refl e') (by simp [NodeAction.Quiet])
      simpa using this
    | cons a acts => exact h
  cases response.nextHeight with
  | none => exact hack hr
  | some nextHeight =>
    obtain ⟨h1, h2⟩ := continueRequests_quiet nextHeight
      (e.pendingRequests.filter fun request => decide (request.peer = peer)) r.1
    have hmore := R.quiet hr h1 h2
    rw [List.append_assoc] at hmore
    exact hack hmore

/-- every input but a storage reply -/
theorem handle (R : EngineRule ck C Seen Known F I J) {e : NodeEngine} (log : List NodeAction) {input : NodeInput}
    (hI : I (input.blocks.map .received ++ l) e log) (hb : ∀ b ∈ input.blocks, Seen b) (hC : StepMeets C ck e input)
    (hinput : ∀ h bytes, input ≠ .storageLoaded h bytes) :
    Safe F (fun r => I l r.1 (log ++ r.2)) (e.handle ck input) := by
  cases input with
  | tick nowMs => exact R.quiet hI ⟨rfl, rfl, rfl, rfl⟩ (by simp)
  | peerConnected peer =>
    simp only [NodeEngine.handle, connectPeer]
    cases hl : e.blockchain.getLatestBlock with
    | error f => exact R.latestFault hI hl
    | ok latest => exact R.quiet hI ⟨rfl, rfl, rfl, rfl⟩ (by simp [queueBlockRequest, NodeAction.Quiet])
  | peerDisconnected peer => exact R.quiet hI ⟨rfl, rfl, rfl, rfl⟩ (by simp [NodeAction.Quiet])
  | localTransactionSubmitted tx =>
    obtain ⟨h1, h2⟩ := submitTransaction_quiet e tx
    exact R.quiet hI h1 h2
  | storageLoaded h bytes => exact absurd rfl (hinput h bytes)
  | persistCompleted t => exact R.quiet hI (SameLedger.refl e) (by simp [NodeAction.Quiet])
  | importRequested peer a b => exact R.quiet hI ⟨rfl, rfl, rfl, rfl⟩ (by simp [NodeAction.Quiet])
  | frameReceived peer frame =>
    simp only [NodeEngine.handle]
    simp only [StepMeets] at hC
    simp only [NodeInput.blocks] at hb hI
    cases hm : NetworkMessage.fromBytes frame with
    | error err =>
      rw [hm] at hI
      exact R.quiet hI (SameLedger.refl e) (by simp [NodeAction.Quiet])
    | ok m =>
      rw [hm] at hC hb hI
      cases m with
      | announceRequest request =>
        obtain ⟨kind⟩ := request
        cases kind with
        | newBlock b => exact R.ingestBlock peer hI (hb b List.mem_cons_self) hC
        | newTransaction tx =>
          obtain ⟨h1, h2⟩ := announceTransaction_quiet e peer tx
          exact R.quiet hI h1 h2
      | syncRequest request =>
        simp only [handleMessage]
        cases hr : e.syncResponse request with
        | error f => exact R.serveFault hI hr
        | ok response => exact R.quiet hI (SameLedger.refl e) (by simp [NodeAction.Quiet])
      | syncResponse response => exact R.handleSyncResponse peer response hI hb hC
      | announceResponse response => exact R.quiet hI (SameLedger.refl e) (by simp [NodeAction.Quiet])

/-- a storage reply; the blocks parked under its hash are looked at only if it carries a state -/
theorem loaded (R : EngineRule ck C Seen Known F I J) {e : NodeEngine} (log : List NodeAction) {h : Hash}
    {bytes : Option (List UInt8)} (hempty : e.pendingBlocks.getD h [] = [] → I l e log)
    (hnone : bytes = none → I l e log)
    (hsome : ∀ b s, bytes = some b → State.fromBytes b = .ok (.ok s) → J h l e log ∧ Known h s)
    (herr : ∀ b err, bytes = some b → State.fromBytes b = .ok (.error err) → I l e log)
    (hfault : ∀ b f, bytes = some b → State.fromBytes b = .error f → F f)
    (hC : StepMeets C ck e (.storageLoaded h bytes)) :
    Safe F (fun r => I l r.1 (log ++ r.2)) (e.handle ck (.storageLoaded h bytes)) := by
  simp only [NodeEngine.handle, handleStorageLoaded]
  cases hp : (e.pendingBlocks.get? h).bind List.head? with
  | none =>
    have hnil : e.pendingBlocks.getD h [] = [] := by
      unfold BTreeMap.getD
      cases hl : e.pendingBlocks.get? h with
      | none => rfl
      | some l =>
        rw [hl] at hp
        exact List.head?_eq_none_iff.1 hp
    exact R.quiet (hempty hnil) (SameLedger.refl e) (by simp [NodeAction.Quiet])
  | some parked =>
    cases bytes with
    | none =>
      exact R.quiet (hnone rfl) ⟨rfl, rfl, rfl, rfl⟩ (by simp [requestParentBlock, queueBlockRequest, NodeAction.Quiet])
    | some b =>
      simp only
      cases hs : State.fromBytes b with
      | error f => exact hfault b f rfl hs
      | ok r =>
        cases r with
        | error err => exact R.quiet (herr b err rfl hs) (SameLedger.refl e) (by simp [NodeAction.Quiet])
        | ok s =>
          obtain ⟨hJ, hknown⟩ := hsome b s rfl hs
          exact R.importParkedBlocks hJ hknown (hC s hs)

/-- the wake action changes nothing -/
theorem step_of_handle (R : EngineRule ck C Seen Known F I J) {e : NodeEngine} (log : List NodeAction)
    {input : NodeInput} (h : Safe F (fun r => I l r.1 (log ++ r.2)) (e.handle ck input)) :
    Safe F (fun r => I l r.1 (log ++ r.2)) (e.step ck input) := by
  unfold NodeEngine.step
  refine h.bind fun r hr _ => ?_
  obtain ⟨h1, h2⟩ := syncWakeAction_quiet r.1
  have := R.quiet hr h1 h2
  rwa [List.append_assoc] at this

end NodeEngine.EngineRule

end RustProof
