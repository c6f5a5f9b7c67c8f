/-
A node over all its starts (`NodeManager::run`, `StorageManager::run` and the start of both runtimes).

A process starts with a new engine. It asks storage for the latest snapshot and takes events from the network at once, also
before the answer has come. Storage executes its commands in order and answers in order. The process can be cut off at any
time, between two key writes of a command as well, and the next one starts on what the store holds then.

The very first process finds the store as `Provisioned` says: empty, so that the ledger starts with the genesis block, or
with one block and its state. What follows in any process is to be built on this `origin`.

Results:
- `exec_sound`: every move of a process, and every new start, keeps `NodeProcess.Sound`;
- `ledger_survives_restarts`: in all processes, however often they are cut off, the engine and the store hold states of the
  one ledger built on the origin, in runs in which no block is imported while a snapshot is still to be restored;
- `early_import_forgets`: one block imported before the restore, and the next process knows no account.
-/
import RustProof.Core.Conservation
import RustProof.Node.HeadState
import RustProof.Runtime.Wake
import RustProof.Storage.Persistence

namespace RustProof

section Restarts

variable [Crypto]

/-! ## Storage commands -/

inductive StorageCommand where
  | loadLatestSnapshot
  | loadSnapshot (blockHash : Hash)
  | persistBlock (block : Block)
  | persistSnapshot (blockHash : Hash) (stateBytes : List UInt8)

/-- the command the node manager sends to storage for an action -/
def NodeAction.storageCommand : NodeAction → Option StorageCommand
  | .loadSnapshot blockHash => some (.loadSnapshot blockHash)
  | .persistBlock block => some (.persistBlock block)
  | .persistSnapshot blockHash stateBytes => some (.persistSnapshot blockHash stateBytes)
  | _ => none

namespace StorageCommand

/-- the key writes of a command, in order -/
def keyWrites : StorageCommand → List KeyWrite
  | .persistBlock block => [.block block.hash block.toPostcard]
  | .persistSnapshot blockHash stateBytes => [.snapshot blockHash stateBytes, .latest blockHash]
  | _ => []

variable (B : Backend) (store : B.Store)

def writes : StorageCommand → Except ContractError (List B.Write)
  | .persistBlock block => B.saveBlock store block
  | .persistSnapshot blockHash stateBytes => B.saveSnapshot store blockHash stateBytes
  | _ => .ok []

/-- the event a command is answered with, if it loads something -/
def answer : StorageCommand → Except ContractError (Option RuntimeEvent)
  | .loadLatestSnapshot =>
    (B.loadLatestSnapshotBundle store).map fun bundle =>
      some (.latestSnapshotLoaded (bundle.map Prod.fst) (bundle.map Prod.snd))
  | .loadSnapshot blockHash => (B.loadSnapshot store blockHash).map fun bytes => some (.storageLoaded blockHash bytes)
  | _ => .ok none

end StorageCommand

/-! ## Processes -/

structure NodeProcess (B : Backend) where
  store : B.Store
  engine : NodeEngine
  /-- the storage channel -/
  commands : List StorageCommand
  /-- the answers of storage that the node manager has not taken, oldest first -/
  loaded : List RuntimeEvent

inductive ProcessMove where
  /-- the node manager takes an event of the network or of the wake loop -/
  | event (event : RuntimeEvent)
  /-- the storage manager takes a command -/
  | execute
  /-- the node manager takes an answer of storage -/
  | loaded
  /-- the process ends after so many key writes of the command in work, and the next one starts -/
  | restart (written : ℕ)

def RuntimeEvent.fromStorage : RuntimeEvent → Bool
  | .storageLoaded _ _ | .latestSnapshotLoaded _ _ => true
  | _ => false

namespace NodeProcess

variable {B : Backend}

def start (store : B.Store) : NodeProcess B := ⟨store, .new .new, [.loadLatestSnapshot], []⟩

/-- the store when the process is cut off after `n` key writes of the command in work -/
def cut (σ : NodeProcess B) (n : ℕ) : B.Store :=
  match σ.commands with
  | [] => σ.store
  | command :: _ =>
    match command.writes B σ.store with
    | .ok ws => B.applyAll σ.store (ws.take n)
    | .error _ => σ.store

/-- the engine takes an event -/
def step (ck : OverflowChecks) (σ : NodeProcess B) (event : RuntimeEvent) : Option (NodeProcess B) :=
  match event.run ck σ.engine with
  | .ok (engine, actions) =>
    some { σ with engine := engine, commands := σ.commands ++ actions.filterMap NodeAction.storageCommand }
  | .error _ => none

/-- the process after a move, if it is possible; a command that fails ends the storage manager -/
def exec (ck : OverflowChecks) (σ : NodeProcess B) : ProcessMove → Option (NodeProcess B)
  | .event event => if event.fromStorage = false then σ.step ck event else none
  | .execute =>
    match σ.commands with
    | [] => none
    | command :: rest =>
      match command.writes B σ.store, command.answer B σ.store with
      | .ok ws, .ok answer =>
        some { σ with store := B.applyAll σ.store ws, commands := rest, loaded := σ.loaded ++ answer.toList }
      | _, _ => none
  | .loaded =>
    match σ.loaded with
    | [] => none
    | event :: rest => ({ σ with loaded := rest } : NodeProcess B).step ck event
  | .restart written => some (.start (σ.cut written))

/-- a snapshot was there at the start, and the engine has not taken it yet -/
def restoring (σ : NodeProcess B) : Bool :=
  match σ.commands, σ.loaded with
  | .loadLatestSnapshot :: _, [] => (B.latest σ.store).isSome
  | _, .latestSnapshotLoaded (some _) _ :: _ => true
  | _, _ => false

end NodeProcess

/-- the store of the first process: empty, or with the block `origin` and its state -/
inductive Provisioned (B : Backend) : Block → State → B.Store → Prop
  | empty : Provisioned B genesisBlock State.new B.empty
  | block {origin : Block} {s : State} {store : B.Store} (sized : origin.Sized) (fits : s.Fits)
      (root : origin.stateRoot = s.computeStateRoot)
      (saved : B.execute B.empty [.persistBlock origin, .persistSnapshot origin.hash s.toBytes] = .ok store) :
      Provisioned B origin s store

namespace NodeProcess

def machine (B : Backend) (ck : OverflowChecks) (origin : Block) (s₀ : State) : Machine (NodeProcess B) ProcessMove where
  init σ := ∃ store, Provisioned B origin s₀ store ∧ σ = .start store
  exec := exec ck

end NodeProcess

def RuntimeEvent.blocks (event : RuntimeEvent) : List Block :=
  match event.input with
  | some input => input.blocks
  | none => []

/-- the ledger starts with the genesis block -/
def FromGenesis (origin : Block) (s₀ : State) : Prop := origin = genesisBlock ∧ s₀ = State.new

/-- the blocks an event brings are of `U`; and while a snapshot is still to be restored, of a ledger that does not start
with the genesis block, no block is imported -/
def RestoresFirst (U : BlockUniverse) (ck : OverflowChecks) (origin : Block) (s₀ : State) {B : Backend}
    (σ : NodeProcess B) : ProcessMove → Prop
  | .event event =>
    (∀ b ∈ event.blocks, b ∈ U.blocks) ∧
      (¬ FromGenesis origin s₀ → σ.restoring = true → ∀ σ', σ.step ck event = some σ' →
        σ'.commands.flatMap StorageCommand.keyWrites = σ.commands.flatMap StorageCommand.keyWrites)
  | _ => True

/-! ## What is kept -/

section Sound

variable (ck : OverflowChecks) (U : BlockUniverse) (origin : Block) (s₀ : State)

/-- a block of the ledger, and bytes that hold its state -/
def GoodSnapshot (b : Block) (bytes : List UInt8) : Prop :=
  ∃ s, Derived ck U origin s₀ b s ∧ State.fromBytes bytes = .ok (.ok s)

/-- what a start finds and what is loaded is of the ledger -/
structure SoundView (v : View) : Prop where
  found : Holds (GoodSnapshot ck U origin s₀) v
  /-- only a store that was empty at first has no latest snapshot -/
  first : v.latest = none → FromGenesis origin s₀
  snapshots : ∀ h bytes, v.snapshots h = some bytes →
    ∃ s, StateAt ck U origin s₀ h s ∧ State.fromBytes bytes = .ok (.ok s)

/-- an answer of storage -/
inductive SoundAnswer : RuntimeEvent → Prop
  | nothing : SoundAnswer (.latestSnapshotLoaded none none)
  | latest {b : Block} {bytes : List UInt8} (good : GoodSnapshot ck U origin s₀ b bytes) :
      SoundAnswer (.latestSnapshotLoaded (some b) (some bytes))
  | missing (h : Hash) : SoundAnswer (.storageLoaded h none)
  | snapshot {h : Hash} {bytes : List UInt8} {s : State} (known : StateAt ck U origin s₀ h s)
      (decoded : State.fromBytes bytes = .ok (.ok s)) : SoundAnswer (.storageLoaded h (some bytes))

/-- the engine's tree is built on a block of the ledger -/
def Rooted (e : NodeEngine) : Prop := ∃ root s, Derived ck U origin s₀ root s ∧ LedgerInv ck U root s e []

structure NodeProcess.Sound {B : Backend} (σ : NodeProcess B) : Prop where
  /-- wherever the writes that are under way are cut off -/
  store : ∀ n, SoundView ck U origin s₀ ((B.view σ.store).applyAll ((σ.commands.flatMap StorageCommand.keyWrites).take n))
  loaded : ∀ event ∈ σ.loaded, SoundAnswer ck U origin s₀ event
  engine : Rooted ck U origin s₀ σ.engine ∨
    (¬ FromGenesis origin s₀ ∧ σ.restoring = true) ∧ LedgerInv ck U genesisBlock State.new σ.engine []

end Sound

variable {ck : OverflowChecks} {U : BlockUniverse} {origin root : Block} {s₀ s : State}

theorem Derived.trans {b : Block} {t : State} (h : Derived ck U origin s₀ root s) (h' : Derived ck U root s b t) :
    Derived ck U origin s₀ b t := by
  induction h' with
  | root => exact h
  | child _ link mem accepted ih => exact .child ih link mem accepted

/-- along the ledger no value is made -/
theorem Derived.total_le {b : Block} {t : State} (h : Derived ck U root s b t) (ht : s.total < 2 ^ 64) :
    t.total ≤ s.total := by
  induction h with
  | root => exact le_rfl
  | child _ _ _ accepted ih =>
    have hstep := (accepted_total (ih.trans_lt ht) accepted).1
    omega

/-! ### The store -/

omit [Crypto] in
/-- once there, the latest snapshot stays -/
theorem View.latest_of_applyAll {v : View} {ws : List KeyWrite} (h : (v.applyAll ws).latest = none) : v.latest = none := by
  induction ws generalizing v with
  | nil => exact h
  | cons w ws ih =>
    have hnext : (v.apply w).latest = none := ih h
    cases w with
    | block hash bytes => exact hnext
    | snapshot hash bytes => exact hnext
    | latest hash => cases hnext

omit [Crypto] in
/-- a snapshot was there or has been written -/
theorem View.snapshots_of_applyAll {v : View} {ws : List KeyWrite} {h : Hash} {bytes : List UInt8}
    (hsome : (v.applyAll ws).snapshots h = some bytes) : v.snapshots h = some bytes ∨ KeyWrite.snapshot h bytes ∈ ws := by
  induction ws generalizing v with
  | nil => exact .inl hsome
  | cons w ws ih =>
    rcases ih (v := v.apply w) hsome with hbefore | hwritten
    · cases w with
      | block hash bytes' => exact .inl hbefore
      | latest hash => exact .inl hbefore
      | snapshot hash bytes' =>
        simp only [View.apply, Function.update_apply] at hbefore
        split_ifs at hbefore with heq
        · cases hbefore
          rw [heq]
          exact .inr List.mem_cons_self
        · exact .inl hbefore
    · exact .inr (List.mem_cons_of_mem _ hwritten)

/-- the imports of a step are good at every crash point -/
theorem SoundView.crash {v : View} (h : SoundView ck U origin s₀ v) (horigin : origin ∈ U.blocks) (hfits : s₀.Fits)
    {imports : List (Block × State)} (hderived : ∀ x ∈ imports, Derived ck U origin s₀ x.1 x.2) (n : ℕ) :
    SoundView ck U origin s₀ (v.applyAll ((imports.flatMap importWrites).take n)) where
  found := by
    have hdecode : ∀ x ∈ imports, State.fromBytes x.2.toBytes = .ok (.ok x.2) := fun x hx => by
      have hround := fromBytes_toBytes ((hderived x hx).fits hfits) []
      rwa [List.append_nil] at hround
    refine h.found.crash n (fun x hx => U.sized _ ((hderived x hx).mem horigin)) ?_ ?_
      fun x hx => ⟨x.2, hderived x hx, hdecode x hx⟩
    · rintro x hx b bytes ⟨s, hs, hdec⟩ hhash
      obtain rfl := (hderived x hx).functional horigin hs hhash
      exact ⟨_, hderived x hx, hdec⟩
    · rintro x hx b bytes ⟨s, hs, -⟩ hhash
      obtain rfl := (hderived x hx).functional horigin hs hhash
      exact ⟨_, hs, hdecode x hx⟩
  first hnone := h.first (View.latest_of_applyAll hnone)
  snapshots x bytes hsome := by
    rcases View.snapshots_of_applyAll hsome with hbefore | hwritten
    · exact h.snapshots x bytes hbefore
    · obtain ⟨y, hy, hwrite⟩ := List.mem_flatMap.1 (List.mem_of_mem_take hwritten)
      simp only [importWrites, List.mem_cons, reduceCtorEq, KeyWrite.snapshot.injEq, List.not_mem_nil, or_false,
        false_or] at hwrite
      obtain ⟨rfl, rfl⟩ := hwrite
      have hround := fromBytes_toBytes ((hderived y hy).fits hfits) []
      rw [List.append_nil] at hround
      exact ⟨y.2, ⟨y.1, hderived y hy, rfl⟩, hround⟩

omit [Crypto] in
theorem eq_ok_of_map {ε α β : Type} {f : α → β} {x : Except ε α} {b : β} (h : x.map f = .ok b) :
    ∃ a, x = .ok a ∧ f a = b := by
  cases x with
  | error e => cases h
  | ok a => exact ⟨a, rfl, Except.ok.inj h⟩

theorem writes_view {B : Backend} {store : B.Store} {command : StorageCommand} {ws : List B.Write}
    (h : command.writes B store = .ok ws) : ws.length = command.keyWrites.length ∧
      ∀ n, B.view (B.applyAll store (ws.take n)) = (B.view store).applyAll (command.keyWrites.take n) := by
  cases command with
  | persistBlock block => exact Backend.command_view (a := .persistBlock block) h
  | persistSnapshot hash bytes => exact Backend.command_view (a := .persistSnapshot hash bytes) h
  | loadLatestSnapshot =>
    cases h
    exact ⟨rfl, fun n => by simp [Backend.applyAll, StorageCommand.keyWrites, View.applyAll]⟩
  | loadSnapshot hash =>
    cases h
    exact ⟨rfl, fun n => by simp [Backend.applyAll, StorageCommand.keyWrites, View.applyAll]⟩

/-- the commands of some actions write what the actions write -/
theorem keyWrites_storageCommands (acts : List NodeAction) :
    (acts.filterMap NodeAction.storageCommand).flatMap StorageCommand.keyWrites = acts.flatMap NodeAction.keyWrites := by
  induction acts with
  | nil => rfl
  | cons a acts ih =>
    rw [List.flatMap_cons, ← ih]
    cases a <;> rfl

/-! ### The engine -/

/-- the ledger, and what a step hands to storage -/
structure StepInv (ck : OverflowChecks) (U : BlockUniverse) (origin : Block) (s₀ : State) (root : Block) (s : State)
    (e : NodeEngine) (log : List NodeAction) : Prop where
  ledger : LedgerInv ck U root s e log
  imports : ∃ imports : List (Block × State), log.flatMap NodeAction.keyWrites = imports.flatMap importWrites ∧
    ∀ x ∈ imports, Derived ck U origin s₀ x.1 x.2

theorem StepInv.append {e e' : NodeEngine} {log acts : List NodeAction} (h : StepInv ck U origin s₀ root s e log)
    (hledger : LedgerInv ck U root s e' (log ++ acts)) (hacts : acts.flatMap NodeAction.keyWrites = []) :
    StepInv ck U origin s₀ root s e' (log ++ acts) := by
  obtain ⟨imports, hwrites, hderived⟩ := h.imports
  exact ⟨hledger, imports, by rw [List.flatMap_append, hacts, List.append_nil, hwrites], hderived⟩

/-- every part of a step keeps this, with states that are known from any process -/
theorem stepRule (horigin : origin ∈ U.blocks) (hroot : Derived ck U origin s₀ root s) :
    NodeEngine.EngineRule ck (fun _ _ => True) (· ∈ U.blocks) (StateAt ck U origin s₀) (· ≠ .missingHead)
      (fun _ => StepInv ck U origin s₀ root s) (fun _ _ => StepInv ck U origin s₀ root s) := by
  have hmem := hroot.mem horigin
  have L := ledgerRule ck s hmem
  exact {
    quiet := fun hI hsame hq => hI.append (L.quiet (l := []) hI.ledger hsame hq) (keyWrites_of_quiet hq)
    note := fun hI => hI.append (L.note (l := []) hI.ledger) rfl
    report := fun {h} {_} {_} {_} {_} hI => hI.append (L.report (h := h) (l := []) hI.ledger) rfl
    park := fun hI hb hhead => hI.append (L.park (l := []) hI.ledger hb hhead) rfl
    direct := fun hI _ _ => hI
    head := by
      intro l e log hI
      obtain ⟨b, hb, hhash⟩ := hI.ledger.tree.state
      exact ⟨b, hroot.trans hb, hhash⟩
    skip := fun hI _ => hI
    take := by
      intro h l e log parked hI hp
      obtain ⟨hledger, hparked⟩ := L.take (l := l) hI.ledger hp
      exact ⟨⟨hledger, hI.imports⟩, hparked⟩
    add := by
      intro l e log b t bc imported hI hb ht _ hadd
      -- the parent is in the tree, so its state is the one of the tree
      obtain ⟨parent, hparent, -⟩ := (Blockchain.addBlock_ok hadd).accepted
      obtain ⟨t', ht'⟩ := hI.ledger.tree.derived _ _ hparent
      have hhash : parent.hash = b.previousHash := hI.ledger.tree.keys _ _ hparent
      obtain rfl : t = t' := ht.functional horigin ⟨parent, hroot.trans ht', hhash⟩
      obtain ⟨-, hledger, -⟩ := L.add (l := l) hI.ledger hb ⟨parent, ht', hhash⟩ trivial hadd
      have hbs := hI.ledger.tree.derived_of_added hmem hb ⟨parent, ht', hhash⟩ (Blockchain.addBlock_ok hadd)
      obtain ⟨imports, hwrites, hderived⟩ := hI.imports
      have hnext : StepInv ck U origin s₀ root s { e with blockchain := bc }
          (log ++ [.persistBlock b, .persistSnapshot b.hash imported.nextState.toBytes]) := by
        refine ⟨hledger, imports ++ [(b, imported.nextState)], ?_, fun y hy => ?_⟩
        · rw [List.flatMap_append, List.flatMap_append, hwrites]
          rfl
        · rcases List.mem_append.1 hy with hy | hy
          · exact hderived y hy
          · rw [List.mem_singleton.1 hy]
            exact hroot.trans hbs
      exact ⟨⟨b, hroot.trans hbs, rfl⟩, hnext, fun _ => hnext⟩
    refuse := fun hI _ _ _ => hI.append (L.note (l := []) hI.ledger) rfl
    addFault := by
      intro l e log b t f hI _ _ hadd
      obtain ⟨head, hhead, -⟩ := hI.ledger.tree.head
      obtain ⟨parent, hv⟩ := Blockchain.addBlock_error hhead hadd
      have hsafe := validate_safe ck parent b t
      rw [hv] at hsafe
      rintro rfl
      exact hsafe
    latestFault := fun hI => L.latestFault (l := []) hI.ledger
    serveFault := fun hI => L.serveFault (l := []) hI.ledger }

/-- an event is fed to an engine whose tree is built on the ledger -/
theorem StepInv.run (horigin : origin ∈ U.blocks) (hroot : Derived ck U origin s₀ root s) {e : NodeEngine}
    (he : LedgerInv ck U root s e []) {input : NodeInput} (hseen : ∀ b ∈ input.blocks, b ∈ U.blocks)
    (hknown : ∀ h bytes, input = .storageLoaded h (some bytes) →
      ∃ t, StateAt ck U origin s₀ h t ∧ State.fromBytes bytes = .ok (.ok t)) :
    Safe (· ≠ .missingHead) (fun r => StepInv ck U origin s₀ root s r.1 r.2) (e.step ck input) := by
  have R := stepRule horigin hroot
  have hI : StepInv ck U origin s₀ root s e [] := ⟨he, [], rfl, fun x hx => by cases hx⟩
  have hmeets : e.StepMeets (fun _ _ => True) ck input := NodeEngine.stepMeets_of_forall (fun _ _ => trivial) e input
  refine R.step_of_handle (l := []) [] ?_
  by_cases hload : ∃ h bytes, input = .storageLoaded h bytes
  · obtain ⟨h, bytes, rfl⟩ := hload
    refine R.loaded (l := []) [] (fun _ => hI) (fun _ => hI) (fun b t hb ht => ⟨hI, ?_⟩) (fun _ _ _ _ => hI)
      (fun b f hb hf => ?_) hmeets
    · subst hb
      obtain ⟨t', hstate, hdecoded⟩ := hknown h b rfl
      cases ht.symm.trans hdecoded
      exact hstate
    · subst hb
      obtain ⟨t', -, hdecoded⟩ := hknown h b rfl
      cases hf.symm.trans hdecoded
  · push Not at hload
    exact R.handle (l := []) [] hI hseen hmeets hload

theorem LedgerInv.forget {e : NodeEngine} {log : List NodeAction} (h : LedgerInv ck U root s e log) :
    LedgerInv ck U root s e [] := ⟨h.tree, h.parked, fun _ _ hmem => by cases hmem⟩

/-- the snapshot of a good block is restored -/
theorem GoodSnapshot.restore (horigin : origin.stateRoot = s₀.computeStateRoot) {b : Block} {bytes : List UInt8}
    (h : GoodSnapshot ck U origin s₀ b bytes) : ∃ s, Derived ck U origin s₀ b s ∧ ∀ e : NodeEngine,
      e.restoreLatestSnapshot (some b) (some bytes) =
        .ok ({ e with blockchain := .restoreHead b s }, [.reportEvent "startup snapshot restored"]) := by
  obtain ⟨s, hs, hdecoded⟩ := h
  exact ⟨s, hs, fun e => restore_of_root e hdecoded (hs.stateRoot horigin)⟩

/-! ### Moves -/

theorem RuntimeEvent.run_of_input {event : RuntimeEvent} {input : NodeInput} (h : event.input = some input)
    (e : NodeEngine) : event.run ck e = e.step ck input := by
  cases event <;> cases h <;> rfl

namespace NodeProcess

variable {B : Backend} {σ σ' : NodeProcess B}

theorem step_eq_some {event : RuntimeEvent} (h : σ.step ck event = some σ') :
    ∃ engine actions, event.run ck σ.engine = .ok (engine, actions) ∧
      σ' = { σ with engine := engine, commands := σ.commands ++ actions.filterMap NodeAction.storageCommand } := by
  unfold step at h
  split at h
  · rename_i engine actions hrun
    exact ⟨engine, actions, hrun, (Option.some.inj h).symm⟩
  · cases h

/-- the actions of a step are handed to storage behind what is under way -/
theorem Sound.handed (hσ : σ.Sound ck U origin s₀) (horigin : origin ∈ U.blocks) (hfits : s₀.Fits) {acts : List NodeAction}
    {imports : List (Block × State)} (hwrites : acts.flatMap NodeAction.keyWrites = imports.flatMap importWrites)
    (hderived : ∀ x ∈ imports, Derived ck U origin s₀ x.1 x.2) (n : ℕ) :
    SoundView ck U origin s₀ ((B.view σ.store).applyAll
      (((σ.commands ++ acts.filterMap NodeAction.storageCommand).flatMap StorageCommand.keyWrites).take n)) := by
  rw [List.flatMap_append, keyWrites_storageCommands, hwrites, List.take_append, View.applyAll_append]
  exact (hσ.store n).crash horigin hfits hderived _

theorem restoring_of_loaded (h : ∃ b bytes rest, σ.loaded = .latestSnapshotLoaded (some b) bytes :: rest) :
    σ.restoring = true := by
  obtain ⟨b, bytes, rest, hloaded⟩ := h
  simp only [restoring, hloaded]

theorem restoring_append (h : σ.restoring = true) (engine : NodeEngine) (commands : List StorageCommand) :
    restoring { σ with engine := engine, commands := σ.commands ++ commands } = true := by
  obtain ⟨store, e, queue, loaded⟩ := σ
  simp only [restoring] at h ⊢
  split at h
  · exact h
  · exact h
  · cases h

/-- an engine whose tree is built on the ledger takes an event -/
theorem Sound.rooted (hσ : σ.Sound ck U origin s₀) (horigin : origin ∈ U.blocks) (hfits : s₀.Fits)
    (hrooted : Rooted ck U origin s₀ σ.engine) {event : RuntimeEvent} {input : NodeInput} (hinput : event.input = some input)
    (hseen : ∀ b ∈ input.blocks, b ∈ U.blocks) (hknown : ∀ h bytes, input = .storageLoaded h (some bytes) →
      ∃ t, StateAt ck U origin s₀ h t ∧ State.fromBytes bytes = .ok (.ok t)) (h : σ.step ck event = some σ') :
    σ'.Sound ck U origin s₀ := by
  obtain ⟨engine, acts, hrun, rfl⟩ := step_eq_some h
  obtain ⟨root, s, hroot, he⟩ := hrooted
  have hstep := StepInv.run horigin hroot he hseen hknown
  rw [← RuntimeEvent.run_of_input hinput, hrun] at hstep
  obtain ⟨imports, hwrites, hderived⟩ := hstep.imports
  exact ⟨hσ.handed horigin hfits hwrites hderived, hσ.loaded, .inl ⟨root, s, hroot, hstep.ledger.forget⟩⟩

/-- before the restore, an engine takes an event and imports nothing -/
theorem Sound.waiting (hσ : σ.Sound ck U origin s₀) (hgenesis : genesisBlock ∈ U.blocks)
    (hwaits : ¬ FromGenesis origin s₀ ∧ σ.restoring = true) (he : LedgerInv ck U genesisBlock State.new σ.engine [])
    {event : RuntimeEvent} {input : NodeInput} (hinput : event.input = some input)
    (hseen : ∀ b ∈ input.blocks, b ∈ U.blocks) (hloads : ∀ h bytes, input ≠ .storageLoaded h (some bytes))
    (h : σ.step ck event = some σ') (hquiet : σ'.commands.flatMap StorageCommand.keyWrites =
      σ.commands.flatMap StorageCommand.keyWrites) : σ'.Sound ck U origin s₀ := by
  obtain ⟨engine, acts, hrun, rfl⟩ := step_eq_some h
  have hstep : Safe (· ≠ .missingHead)
      (fun r => StepInv ck U genesisBlock State.new genesisBlock State.new r.1 r.2) (σ.engine.step ck input) :=
    StepInv.run hgenesis .root he hseen fun x bytes hload => absurd hload (hloads x bytes)
  rw [← RuntimeEvent.run_of_input hinput, hrun] at hstep
  refine ⟨fun n => ?_, hσ.loaded, .inr ⟨⟨hwaits.1, restoring_append hwaits.2 _ _⟩, hstep.ledger.forget⟩⟩
  dsimp only at hquiet ⊢
  rw [hquiet]
  exact hσ.store n

/-- the node manager takes an answer of storage -/
theorem Sound.take (hσ : σ.Sound ck U origin s₀) (horigin : origin ∈ U.blocks) (hfits : s₀.Fits)
    (hroot : origin.stateRoot = s₀.computeStateRoot) {event : RuntimeEvent} {rest : List RuntimeEvent}
    (hloaded : σ.loaded = event :: rest) (h : ({ σ with loaded := rest } : NodeProcess B).step ck event = some σ') :
    σ'.Sound ck U origin s₀ := by
  have hrest : ∀ event ∈ rest, SoundAnswer ck U origin s₀ event := fun x hx =>
    hσ.loaded x (hloaded ▸ List.mem_cons_of_mem _ hx)
  have hfirst := hσ.loaded event (hloaded ▸ List.mem_cons_self)
  -- only the latest snapshot is waited for
  have hrooted (hother : ∀ b bytes, event ≠ .latestSnapshotLoaded (some b) bytes) : Rooted ck U origin s₀ σ.engine := by
    refine hσ.engine.resolve_right fun hwaits => ?_
    have hrestoring := hwaits.1.2
    simp only [restoring, hloaded] at hrestoring
    split at hrestoring
    · rename_i hnil
      cases hnil
    · rename_i hcons
      cases hcons
      exact hother _ _ rfl
    · cases hrestoring
  cases hfirst with
  | nothing =>
    obtain ⟨engine, acts, hrun, rfl⟩ := step_eq_some h
    cases hrun
    refine ⟨fun n => ?_, hrest, .inl (hrooted fun b bytes hlatest => by cases hlatest)⟩
    simpa only [List.filterMap_cons, List.filterMap_nil, NodeAction.storageCommand, List.append_nil] using hσ.store n
  | @latest b bytes good =>
    obtain ⟨engine, acts, hrun, rfl⟩ := step_eq_some h
    obtain ⟨s, hs, hrestore⟩ := GoodSnapshot.restore hroot good
    cases (hrestore σ.engine).symm.trans hrun
    have hparked : Parked (· ∈ U.blocks) σ.engine := by
      rcases hσ.engine with ⟨root, t, -, he⟩ | ⟨-, he⟩
      · exact he.parked
      · exact he.parked
    refine ⟨fun n => ?_, hrest, .inl ⟨b, s, hs, TreeInv.single _ rfl rfl rfl, hparked, fun _ _ hmem => by cases hmem⟩⟩
    simpa only [List.filterMap_cons, List.filterMap_nil, NodeAction.storageCommand, List.append_nil] using hσ.store n
  | missing x =>
    have hσ' : Sound ck U origin s₀ { σ with loaded := rest } :=
      ⟨hσ.store, hrest, .inl (hrooted fun b bytes hlatest => by cases hlatest)⟩
    refine hσ'.rooted horigin hfits (hrooted fun b bytes hlatest => by cases hlatest) rfl (fun b hb => by cases hb)
      (fun y bytes hload => by cases hload) h
  | @snapshot x bytes t known decoded =>
    have hσ' : Sound ck U origin s₀ { σ with loaded := rest } :=
      ⟨hσ.store, hrest, .inl (hrooted fun b bytes hlatest => by cases hlatest)⟩
    refine hσ'.rooted horigin hfits (hrooted fun b bytes hlatest => by cases hlatest) rfl (fun b hb => by cases hb)
      (fun y bytes' hload => ?_) h
    cases hload
    exact ⟨t, known, decoded⟩

/-- the storage manager carries out a command -/
theorem Sound.executed (hσ : σ.Sound ck U origin s₀) {command : StorageCommand} {rest : List StorageCommand}
    (hcommands : σ.commands = command :: rest) {ws : List B.Write} {answer : Option RuntimeEvent}
    (hwrites : command.writes B σ.store = .ok ws) (hanswer : command.answer B σ.store = .ok answer) :
    Sound ck U origin s₀
      { σ with store := B.applyAll σ.store ws, commands := rest, loaded := σ.loaded ++ answer.toList } := by
  obtain ⟨hlen, hview⟩ := writes_view hwrites
  have hnow : SoundView ck U origin s₀ (B.view σ.store) := hσ.store 0
  -- what the latest snapshot is answered with
  have hbundle {bundle : Option (Block × List UInt8)} (hload : B.loadLatestSnapshotBundle σ.store = .ok bundle) :
      bundle = none ∧ B.latest σ.store = none ∨ ∃ b bytes, bundle = some (b, bytes) ∧ GoodSnapshot ck U origin s₀ b bytes := by
    rcases hnow.found with hnone | ⟨b, bytes, hlatest, hblock, hsnap, hgood⟩
    · exact .inl ⟨Except.ok.inj (hload.symm.trans (B.bundle_none hnone)), hnone⟩
    · exact .inr ⟨b, bytes, Except.ok.inj (hload.symm.trans (B.bundle_some.2 ⟨hlatest, hblock, hsnap⟩)), hgood⟩
  refine ⟨fun n => ?_, fun event hevent => ?_, ?_⟩
  · have hpending := hσ.store (command.keyWrites.length + n)
    rw [hcommands, List.flatMap_cons, List.take_length_add_append, View.applyAll_append] at hpending
    have hall := hview ws.length
    rw [List.take_length, hlen, List.take_length] at hall
    dsimp only
    rw [hall]
    exact hpending
  · rcases List.mem_append.1 hevent with hold | hnew
    · exact hσ.loaded event hold
    · rw [Option.mem_toList] at hnew
      subst hnew
      cases command with
      | persistBlock block => cases hanswer
      | persistSnapshot hash bytes => cases hanswer
      | loadLatestSnapshot =>
        obtain ⟨bundle, hload, heq⟩ := eq_ok_of_map hanswer
        cases heq
        rcases hbundle hload with ⟨rfl, -⟩ | ⟨b, bytes, rfl, hgood⟩
        · exact .nothing
        · exact .latest hgood
      | loadSnapshot hash =>
        obtain ⟨found?, hload, heq⟩ := eq_ok_of_map hanswer
        cases heq
        cases found? with
        | none => exact .missing hash
        | some bytes =>
          obtain ⟨t, hknown, hdecoded⟩ := hnow.snapshots hash bytes (by simp only [Backend.view, hload, found])
          exact .snapshot hknown hdecoded
  · refine hσ.engine.imp_right fun ⟨⟨hfirst, hrestoring⟩, he⟩ => ⟨⟨hfirst, ?_⟩, he⟩
    simp only [restoring, hcommands] at hrestoring
    split at hrestoring
    · rename_i hload hnil
      cases hload
      obtain ⟨bundle, hload, heq⟩ := eq_ok_of_map hanswer
      cases heq
      rcases hbundle hload with ⟨-, hnone⟩ | ⟨b, bytes, rfl, -⟩
      · rw [hnone] at hrestoring
        cases hrestoring
      · exact restoring_of_loaded ⟨b, some bytes, [], congrArg (· ++ _) hnil⟩
    · rename_i hcons
      exact restoring_of_loaded ⟨_, _, _, congrArg (· ++ _) hcons⟩
    · cases hrestoring

/-- the store of the next process -/
theorem Sound.cut (hσ : σ.Sound ck U origin s₀) (n : ℕ) : SoundView ck U origin s₀ (B.view (σ.cut n)) := by
  have hnow : SoundView ck U origin s₀ (B.view σ.store) := hσ.store 0
  unfold NodeProcess.cut
  split
  · exact hnow
  · rename_i command rest hcommands
    split
    · rename_i ws hwrites
      obtain ⟨hlen, hview⟩ := writes_view hwrites
      rw [hview n]
      rcases Nat.le_total n command.keyWrites.length with hle | hge
      · have hpending := hσ.store n
        rwa [hcommands, List.flatMap_cons, List.take_append_of_le_length hle] at hpending
      · have hpending := hσ.store command.keyWrites.length
        rw [hcommands, List.flatMap_cons, List.take_left] at hpending
        rwa [List.take_of_length_le hge]
    · exact hnow

/-- a new process on a sound store -/
theorem sound_start {store : B.Store} (hview : SoundView ck U origin s₀ (B.view store)) :
    (start store : NodeProcess B).Sound ck U origin s₀ := by
  have hnew : LedgerInv ck U genesisBlock State.new (.new .new) [] :=
    ⟨(Start.new : Start ck _ _ _).tree U, (fun h l hl => by cases hl), fun _ _ hmem => by cases hmem⟩
  refine ⟨fun n => ?_, (fun event hevent => by cases hevent), ?_⟩
  · rw [show (start store : NodeProcess B).commands.flatMap StorageCommand.keyWrites = [] from rfl, List.take_nil]
    exact hview
  · by_cases hgenesis : FromGenesis origin s₀
    · obtain ⟨rfl, rfl⟩ := hgenesis
      exact .inl ⟨genesisBlock, State.new, .root, hnew⟩
    · refine .inr ⟨⟨hgenesis, ?_⟩, hnew⟩
      rw [restoring, start, Option.isSome_iff_ne_none]
      exact fun hnone => hgenesis (hview.first hnone)

/-- **Every move, and every new start, keeps the ledger.** -/
theorem exec_sound (hσ : σ.Sound ck U origin s₀) (horigin : origin ∈ U.blocks) (hgenesis : genesisBlock ∈ U.blocks)
    (hfits : s₀.Fits) (hroot : origin.stateRoot = s₀.computeStateRoot) {move : ProcessMove}
    (hcond : RestoresFirst U ck origin s₀ σ move) (h : σ.exec ck move = some σ') : σ'.Sound ck U origin s₀ := by
  cases move with
  | event event =>
    simp only [exec] at h
    split_ifs at h with hsource
    obtain ⟨hseen, hquiet⟩ := hcond
    obtain ⟨input, hinput⟩ : ∃ input, event.input = some input := by
      cases event with
      | latestSnapshotLoaded block bytes => cases hsource
      | _ => exact ⟨_, rfl⟩
    have hblocks : ∀ b ∈ input.blocks, b ∈ U.blocks := by
      simpa only [RuntimeEvent.blocks, hinput] using hseen
    have hloads : ∀ x bytes, input ≠ .storageLoaded x (some bytes) := by
      rintro x bytes rfl
      cases event <;> cases hinput
      cases hsource
    rcases hσ.engine with hrooted | ⟨hwaits, he⟩
    · exact hσ.rooted horigin hfits hrooted hinput hblocks (fun x bytes hload => absurd hload (hloads x bytes)) h
    · exact hσ.waiting hgenesis hwaits he hinput hblocks hloads h (hquiet hwaits.1 hwaits.2 σ' h)
  | execute =>
    simp only [exec] at h
    split at h
    · cases h
    · rename_i command rest hcommands
      split at h
      · rename_i ws answer hwrites hanswer
        cases h
        exact hσ.executed hcommands hwrites hanswer
      · cases h
  | loaded =>
    simp only [exec] at h
    split at h
    · cases h
    · rename_i event rest hloaded
      exact hσ.take horigin hfits hroot hloaded h
  | restart written =>
    cases h
    exact sound_start (hσ.cut written)

end NodeProcess

/-! ## Runs -/

/-- the first process starts on the ledger's origin -/
theorem Provisioned.sound {B : Backend} {store : B.Store} (h : Provisioned B origin s₀ store) :
    s₀.Fits ∧ origin.stateRoot = s₀.computeStateRoot ∧ SoundView ck U origin s₀ (B.view store) := by
  cases h with
  | empty =>
    refine ⟨State.new_fits, rfl, ?_⟩
    rw [B.view_empty]
    exact ⟨.inl rfl, fun _ => ⟨rfl, rfl⟩, fun x bytes hsome => by cases hsome⟩
  | block sized fits root saved =>
    have hround := fromBytes_toBytes fits []
    rw [List.append_nil] at hround
    have hview : B.view store = View.empty.applyAll (importWrites (origin, s₀)) := by
      rw [← B.view_empty]
      exact (Backend.execute_view saved).1
    refine ⟨fits, root, ?_⟩
    rw [hview]
    refine ⟨Holds.import sized ⟨s₀, .root, hround⟩, (fun hnone => by cases hnone), fun x bytes hsome => ?_⟩
    rcases View.snapshots_of_applyAll hsome with hbefore | hwritten
    · cases hbefore
    · simp only [importWrites, List.mem_cons, reduceCtorEq, KeyWrite.snapshot.injEq, List.not_mem_nil, or_false,
        false_or] at hwritten
      obtain ⟨rfl, rfl⟩ := hwritten
      exact ⟨s₀, ⟨origin, .root, rfl⟩, hround⟩

theorem sound_of_reached {B : Backend} (hgenesis : genesisBlock ∈ U.blocks) (horigin : origin ∈ U.blocks)
    {σ : NodeProcess B} (h : (NodeProcess.machine B ck origin s₀).Reached (RestoresFirst U ck origin s₀) σ) :
    (s₀.Fits ∧ origin.stateRoot = s₀.computeStateRoot) ∧ σ.Sound ck U origin s₀ := by
  refine Machine.Reached.invariant (I := fun σ : NodeProcess B =>
    (s₀.Fits ∧ origin.stateRoot = s₀.computeStateRoot) ∧ σ.Sound ck U origin s₀) ?_ ?_ h
  · rintro _ ⟨store, hstore, rfl⟩
    obtain ⟨hfits, hroot, hview⟩ := hstore.sound
    exact ⟨⟨hfits, hroot⟩, NodeProcess.sound_start hview⟩
  · rintro σ move σ' ⟨⟨hfits, hroot⟩, hσ⟩ hcond hexec
    exact ⟨⟨hfits, hroot⟩, NodeProcess.exec_sound hσ horigin hgenesis hfits hroot hcond hexec⟩

/-- **The ledger survives restarts.** Take any number of processes, one after the other, each cut off at any time, in which
no block is imported while the snapshot of another ledger than the genesis block's is still to be restored. Then in every
state reached: an engine that is not waiting for a restore holds a tree with `Integrity`, built on a block of the ledger,
with its head's state in the ledger and no value made; every snapshot that can be loaded is the state of its block in the
ledger; and wherever the process is cut off, the next one restores a block of the ledger with its state, or finds the
store empty and starts the ledger of the genesis block. -/
theorem ledger_survives_restarts (kind : StorageKind) (hgenesis : genesisBlock ∈ U.blocks) (horigin : origin ∈ U.blocks)
    {σ : NodeProcess kind.backend}
    (h : (NodeProcess.machine kind.backend ck origin s₀).Reached (RestoresFirst U ck origin s₀) σ) :
    (σ.restoring = false → ∃ root s, Derived ck U origin s₀ root s ∧ Integrity ck root s σ.engine.blockchain ∧
        StateAt ck U origin s₀ σ.engine.blockchain.headHash σ.engine.blockchain.state ∧
        (s₀.total < 2 ^ 64 → σ.engine.blockchain.state.total ≤ s₀.total)) ∧
      (∀ x bytes, kind.backend.loadSnapshot σ.store x = .ok (some bytes) →
        ∃ s, StateAt ck U origin s₀ x s ∧ State.fromBytes bytes = .ok (.ok s)) ∧
      ∀ n, kind.backend.loadLatestSnapshotBundle (σ.cut n) = .ok none ∧ FromGenesis origin s₀ ∨
        ∃ b bytes s, kind.backend.loadLatestSnapshotBundle (σ.cut n) = .ok (some (b, bytes)) ∧
          Derived ck U origin s₀ b s ∧ ∀ e : NodeEngine, e.restoreLatestSnapshot (some b) (some bytes) =
            .ok ({ e with blockchain := .restoreHead b s }, [.reportEvent "startup snapshot restored"]) := by
  obtain ⟨⟨-, hroot⟩, hσ⟩ := sound_of_reached hgenesis horigin h
  refine ⟨fun hrestored => ?_, fun x bytes hload => ?_, fun n => ?_⟩
  · rcases hσ.engine with ⟨root, s, hs, he⟩ | ⟨⟨-, hrestoring⟩, -⟩
    · obtain ⟨b, hb, hhash⟩ := he.tree.state
      exact ⟨root, s, hs, he.tree.integrity (hs.mem horigin), ⟨b, hs.trans hb, hhash⟩, (hs.trans hb).total_le⟩
    · cases hrestored.symm.trans hrestoring
  · exact (hσ.store 0).snapshots x bytes (by
      simp only [List.take_zero, View.applyAll, List.foldl_nil, Backend.view, hload, found])
  · have hcut := hσ.cut n
    rcases hcut.found with hnone | ⟨b, bytes, hlatest, hblock, hsnap, hgood⟩
    · exact .inl ⟨kind.backend.bundle_none hnone, hcut.first hnone⟩
    · obtain ⟨s, hs, hrestore⟩ := GoodSnapshot.restore hroot hgood
      exact .inr ⟨b, bytes, s, kind.backend.bundle_some.2 ⟨hlatest, hblock, hsnap⟩, hs, hrestore⟩

end Restarts

section Witness

open Sample

/-- a store with the block `paidRoot` and its state, in which `key 2` has a balance and `key 3` a stake -/
def provided : StorageKind.sled.backend.Store :=
  (StorageKind.sled.backend.execute StorageKind.sled.backend.empty
    [.persistBlock paidRoot, .persistSnapshot paidRoot.hash start.toBytes]).toOption.get (by decide +kernel)

theorem provided_provisioned : Provisioned StorageKind.sled.backend paidRoot start provided :=
  .block paidRoot_sized start_fits (by decide +kernel) (Backend.execute_get _)

def paidUniverse : BlockUniverse where
  blocks := {b | b = genesis ∨ b = paidRoot ∨ b = paidBlock}
  sized := by
    rintro b (rfl | rfl | rfl)
    · exact genesisBlock_sized
    · exact paidRoot_sized
    · exact paidBlock_sized
  noCollision := by
    have hne : genesis.hash ≠ paidRoot.hash ∧ genesis.hash ≠ paidBlock.hash ∧ paidRoot.hash ≠ paidBlock.hash := by
      decide +kernel
    rintro a (rfl | rfl | rfl) b (rfl | rfl | rfl) h
    · rfl
    · exact absurd h hne.1
    · exact absurd h hne.2.1
    · exact absurd h.symm hne.1
    · rfl
    · exact absurd h hne.2.2
    · exact absurd h.symm hne.2.1
    · exact absurd h.symm hne.2.2
    · rfl

/-- the announcement of `paidBlock`, when nothing is still to be restored -/
def PaysAfterRestore (σ : NodeProcess StorageKind.sled.backend) : ProcessMove → Prop
  | .event (.frameReceived _ frame) =>
    frame = (NetworkMessage.announceRequest (.block paidBlock)).toBytes ∧ σ.restoring = false
  | .event _ => False
  | _ => True

instance (σ : NodeProcess StorageKind.sled.backend) : (move : ProcessMove) → Decidable (PaysAfterRestore σ move)
  | .event (.frameReceived _ frame) => inferInstanceAs
      (Decidable (frame = (NetworkMessage.announceRequest (.block paidBlock)).toBytes ∧ σ.restoring = false))
  | .event (.tick _) | .event (.peerConnected _) | .event (.peerDisconnected _) | .event (.storageLoaded _ _)
  | .event (.latestSnapshotLoaded _ _) => .isFalse id
  | .execute | .loaded | .restart _ => .isTrue trivial

theorem restoresFirst_of_pays {σ : NodeProcess StorageKind.sled.backend} {move : ProcessMove}
    (h : PaysAfterRestore σ move) : RestoresFirst paidUniverse .debug paidRoot start σ move := by
  cases move with
  | event event =>
    cases event with
    | frameReceived sender frame =>
      obtain ⟨rfl, hrestored⟩ := h
      refine ⟨fun b hb => ?_, fun _ hrestoring => by cases hrestored.symm.trans hrestoring⟩
      change b ∈ (announce sender paidBlock).blocks at hb
      rw [announce_blocks sender paidBlock_sized, List.mem_singleton] at hb
      exact .inr (.inr hb)
    | _ => exact h.elim
  | _ => trivial

/-- the first process restores the root and imports `paidBlock`, and is cut off before the pointer is written; the second
imports it again and is cut off after that; the third restores it -/
def payAndRestart : List ProcessMove :=
  [.execute, .loaded, .event (.frameReceived peer (NetworkMessage.announceRequest (.block paidBlock)).toBytes), .execute,
    .restart 1, .execute, .loaded,
    .event (.frameReceived peer (NetworkMessage.announceRequest (.block paidBlock)).toBytes), .execute, .execute, .restart 0,
    .execute, .loaded]

def restarted : NodeProcess StorageKind.sled.backend :=
  ((NodeProcess.machine StorageKind.sled.backend .debug paidRoot start).replay PaysAfterRestore payAndRestart
    (.start provided)).get (by decide +kernel)

theorem restarted_reached : (NodeProcess.machine StorageKind.sled.backend .debug paidRoot start).Reached
    (RestoresFirst paidUniverse .debug paidRoot start) restarted :=
  Machine.Reached.mono (fun _ _ => restoresFirst_of_pays)
    (Machine.Reached.of_replay (.start ⟨provided, provided_provisioned, rfl⟩) (Option.some_get _).symm)

/-- the third process goes on from `paidBlock` -/
theorem ledger_survives_restarts_of_restarted :
    (restarted.restoring = false ∧ restarted.engine.blockchain.headHash = paidBlock.hash) ∧
      ∃ root s, Derived .debug paidUniverse paidRoot start root s ∧
        Integrity .debug root s restarted.engine.blockchain ∧
        StateAt .debug paidUniverse paidRoot start restarted.engine.blockchain.headHash
          restarted.engine.blockchain.state := by
  have hfacts : restarted.restoring = false ∧ restarted.engine.blockchain.headHash = paidBlock.hash := by decide +kernel
  have hmain := ledger_survives_restarts .sled (U := paidUniverse) (.inl rfl) (.inr (.inl rfl)) restarted_reached
  obtain ⟨root, s, hderived, hintegrity, hstate, -⟩ := hmain.1 hfacts.1
  exact ⟨hfacts, root, s, hderived, hintegrity, hstate⟩

/-! A block of the empty ledger comes in before the restore. Its snapshot is written behind the one that is restored, and the
next process starts on it. -/

def earlyThenRestart : List ProcessMove :=
  [.event (.frameReceived peer (NetworkMessage.announceRequest (.block m₁)).toBytes), .execute, .loaded, .execute, .execute,
    .restart 0, .execute, .loaded]

def forgotten : NodeProcess StorageKind.sled.backend :=
  ((NodeProcess.machine StorageKind.sled.backend .debug paidRoot start).replay (fun _ _ => True) earlyThenRestart
    (.start provided)).get (by decide +kernel)

/-- the node that restored the state with a balance has restarted with one that knows no account -/
theorem early_import_forgets :
    (NodeProcess.machine StorageKind.sled.backend .debug paidRoot start).Reached (fun _ _ => True) forgotten ∧
      start.balances.getD (key 2) 0 = 100 ∧ forgotten.restoring = false ∧
      forgotten.engine.blockchain.headHash = m₁.hash ∧ forgotten.engine.blockchain.state.balances = BTreeMap.empty := by
  have hfacts : start.balances.getD (key 2) 0 = 100 ∧ forgotten.restoring = false ∧
      forgotten.engine.blockchain.headHash = m₁.hash ∧ forgotten.engine.blockchain.state.balances = BTreeMap.empty := by
    decide +kernel
  exact ⟨Machine.Reached.of_replay (.start ⟨provided, provided_provisioned, rfl⟩) (Option.some_get _).symm, hfacts⟩

end Witness

end RustProof
