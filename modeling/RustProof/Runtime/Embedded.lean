/-
The embedded node (erp-runtime): the network manager, its session workers and the node manager with its engine, each a
task of its own, and the channels between them.

A worker that has set up its session sends `Ready` over the session event channel to the network manager, and then
forwards frames over the event channel to the node manager. After a sync request it does nothing but wait for a command
with a response (`wait_for_sync_response`). When its session is over it sends `Closed` and stops reading its commands. The
network manager takes what comes first of connections, commands, session events and the bootstrap timer, and returns
on the first error. What a worker does on its substreams is not followed.

Channels are unbounded here. In the program the command channel of a session has `SESSION_CONTROL_CHANNEL_CAPACITY` places, and
a network manager that sends to a full one waits until the worker takes a command. Such a wait is no error and no step of the
model: the results say which errors the manager returns, not that it is never kept waiting.

Not part of the program is what is recorded about the past: session events and events carry the worker they come from,
commands the event they were made for, and `routed` lists where responses went.

As long as the network manager runs, its registry, its command channels and the workers agree (`Slots`).

Results:
- `network_manager_keeps_running`: the network manager returns no error, in runs in which every connection finds a free
  slot, no node becomes ready in a second session, and no command goes to a session whose worker has returned;
- `full_registry_and_duplicate_stop_the_manager`: a connection too many and a node that connects twice end the loop.
-/
import RustProof.Lib.Machine
import RustProof.Runtime.Slots

namespace RustProof

namespace Erp

section Embedded

variable [Crypto]

/-! ## Workers -/

structure Worker where
  sessionId : SessionId
  stage : WorkerStage
  /-- `deferred_commands`, then what is in the channel -/
  commands : List SessionCommand

inductive WorkerMove where
  /-- the session is established -/
  | ready (peer : VerifiedPeer)
  /-- a frame for the engine -/
  | forward (message : NetworkMessage)
  /-- it takes its next command -/
  | receive
  /-- the session is over -/
  | close
  /-- the worker returns -/
  | drop

namespace Worker

def finish (r : Worker) : Worker × List SessionEvent × List RuntimeEvent :=
  ({ r with stage := .ended r.stage.node true }, [.closed r.sessionId r.stage.node], [])

/-- the worker after a move, what it sends to the network manager and what to the node manager -/
def exec (r : Worker) : WorkerMove → Option (Worker × List SessionEvent × List RuntimeEvent)
  | .ready peer =>
    match r.stage with
    | .handshaking => some ({ r with stage := .established peer none }, [.ready r.sessionId peer], [])
    | _ => none
  | .forward message =>
    match r.stage with
    | .established peer none =>
      let retained : Option (List SessionCommand) :=
        match message with
        | .syncRequest _ => some []
        | _ => none
      some ({ r with stage := .established peer retained }, [], [.frameReceived peer.nodePeerId message.toBytes])
    | _ => none
  | .receive =>
    match r.stage, r.commands with
    | .established _ none, .sendFrame frame :: rest =>
      match NetworkMessage.fromBytes frame with
      | .ok (.announceRequest _) | .ok (.syncRequest _) => some ({ r with commands := rest }, [], [])
      | _ => some { r with commands := rest }.finish
    | .established peer (some retained), .sendFrame frame :: rest =>
      match NetworkMessage.fromBytes frame with
      | .ok (.syncResponse _) =>
        some ({ r with stage := .established peer none, commands := retained ++ rest }, [], [])
      | .ok other =>
        some ({ r with stage := .established peer (some (retained ++ [.sendFrame other.toBytes])), commands := rest },
          [], [])
      | .error _ => some { r with commands := rest }.finish
    | .established _ _, .disconnect :: rest => some { r with commands := rest }.finish
    | _, _ => none
  | .close =>
    match r.stage with
    | .handshaking | .established _ none => some r.finish
    | _ => none
  | .drop =>
    match r.stage with
    | .ended nodePeerId true => some ({ r with stage := .ended nodePeerId false }, [], [])
    | _ => none

end Worker

/-! ## The node -/

/-- where a command comes from -/
structure Cause where
  event : RuntimeEvent
  /-- the worker that forwarded the event -/
  worker : Option WorkerId

/-- a response that the network manager has taken -/
structure Routed where
  /-- the worker that forwarded the request -/
  worker : WorkerId
  /-- its session was not over -/
  live : Bool
  receivers : List WorkerId
deriving DecidableEq

structure Embedded where
  manager : NetworkManager
  /-- what `NetworkManager::run` returned -/
  error : Option RuntimeError
  /-- in the order in which they were spawned -/
  workers : List Worker
  /-- the session event channel -/
  sessionEvents : List (WorkerId × SessionEvent)
  engine : NodeEngine
  /-- the event channel -/
  events : List (RuntimeEvent × Option WorkerId)
  /-- the actions of the last step that the node manager has still to handle -/
  actions : List (NodeAction × Cause)
  /-- the command channel -/
  commands : List (NetworkCommand × Cause)
  routed : List Routed

inductive ManagerMove where
  | accept
  | acceptError
  | bootstrap (network : Network)
  | sessionEvent
  | command

inductive EmbeddedMove where
  | manager (move : ManagerMove)
  | worker (worker : WorkerId) (move : WorkerMove)
  /-- from the wake loop or from storage -/
  | arrive (event : RuntimeEvent)
  | process
  | perform

namespace Embedded

def start (config : NetworkConfig) (blockchain : Blockchain) : Embedded :=
  { manager := .new config
    error := none
    workers := []
    sessionEvents := []
    engine := .new blockchain
    events := []
    actions := []
    commands := []
    routed := [] }

def isOpen (σ : Embedded) (w : WorkerId) : Bool := σ.workers[w]?.any fun r => r.stage.receiving

def isLive (σ : Embedded) (w : WorkerId) : Bool := σ.workers[w]?.any fun r => r.stage.live

/-- the commands arrive in the command channels -/
def deliver (workers : List Worker) (sent : List (WorkerId × SessionCommand)) : List Worker :=
  workers.mapIdx fun w r => { r with commands := r.commands ++ (sent.filter fun s => s.1 = w).map Prod.snd }

/-- the node after a turn of the network manager's loop, if there is something to take, and how the turn ended -/
def managerTurn (σ : Embedded) : ManagerMove → Option (Embedded × Except RuntimeError Unit)
  | .accept =>
    match σ.manager.spawnSession σ.workers.length false none with
    | .error e => some (σ, .error e)
    | .ok (manager, id) => some ({ σ with manager := manager, workers := σ.workers ++ [⟨id, .handshaking, []⟩] }, .ok ())
  | .acceptError => some (σ, .ok ())
  | .bootstrap network =>
    match σ.manager.bootstrapOnce σ.workers.length network with
    | .error e => some (σ, .error e)
    | .ok (manager, none) => some ({ σ with manager := manager }, .ok ())
    | .ok (manager, some id) =>
      some ({ σ with manager := manager, workers := σ.workers ++ [⟨id, .handshaking, []⟩] }, .ok ())
  | .sessionEvent =>
    match σ.sessionEvents with
    | [] => none
    | (_, event) :: rest =>
      match σ.manager.handleSessionEvent event with
      | .error e => some (σ, .error e)
      | .ok (manager, events) =>
        some ({ σ with
          manager := manager
          sessionEvents := rest
          events := σ.events ++ events.map fun e => (e, none) }, .ok ())
  | .command =>
    match σ.commands with
    | [] => none
    | (command, cause) :: rest =>
      let (sent, result) := σ.manager.handleNetworkCommand σ.isOpen command
      let routed : List Routed :=
        match cause.event.ask, cause.worker with
        | some _, some w => [⟨w, σ.isLive w, sent.map Prod.fst⟩]
        | _, _ => []
      some ({ σ with
        commands := rest
        workers := deliver σ.workers sent
        routed := σ.routed ++ routed }, result)

/-- the state after a move, if it is possible -/
def exec (ck : OverflowChecks) (σ : Embedded) : EmbeddedMove → Option Embedded
  | .manager move =>
    if σ.error = none then
      (σ.managerTurn move).map fun (σ', result) =>
        match result with
        | .ok () => σ'
        | .error e => { σ' with error := some e }
    else none
  | .worker w move =>
    (σ.workers[w]?.bind fun r => r.exec move).map fun (r, sessionEvents, events) =>
      { σ with
        workers := σ.workers.set w r
        sessionEvents := σ.sessionEvents ++ sessionEvents.map fun e => (w, e)
        events := σ.events ++ events.map fun e => (e, some w) }
  | .arrive event =>
    if event.fromNetwork = false then some { σ with events := σ.events ++ [(event, none)] } else none
  | .process =>
    match σ.actions, σ.events with
    | [], (event, worker) :: rest =>
      match event.run ck σ.engine with
      | .ok (e', acts) => some { σ with engine := e', events := rest, actions := acts.map fun a => (a, ⟨event, worker⟩) }
      | .error _ => none
    | _, _ => none
  | .perform =>
    match σ.actions with
    | (action, cause) :: rest =>
      some { σ with actions := rest, commands := σ.commands ++ (action.networkCommand.map fun c => (c, cause)).toList }
    | [] => none

/-- all interleavings of the tasks -/
def machine (ck : OverflowChecks) : Machine Embedded EmbeddedMove where
  init σ := ∃ config blockchain, σ = .start config blockchain
  exec := exec ck

/-- slot and stage of a worker -/
def worker (σ : Embedded) (w : WorkerId) : Option (SessionId × WorkerStage) :=
  σ.workers[w]?.map fun r => (r.sessionId, r.stage)

section Workers

variable (σ : Embedded)

theorem worker_append (r : Worker) (w : WorkerId) :
    ((σ.workers ++ [r])[w]?.map fun r => (r.sessionId, r.stage)) =
      if w = σ.workers.length then some (r.sessionId, r.stage) else σ.worker w := by
  rw [worker]
  rcases Nat.lt_trichotomy w σ.workers.length with hlt | rfl | hgt
  · rw [List.getElem?_append_left hlt, if_neg hlt.ne]
  · rw [List.getElem?_concat_length, if_pos rfl]
    rfl
  · rw [List.getElem?_eq_none (by rw [List.length_append, List.length_singleton]; omega), if_neg hgt.ne',
      List.getElem?_eq_none hgt.le]

theorem worker_set {w : WorkerId} {r r' : Worker} (h : σ.workers[w]? = some r) (w' : WorkerId) :
    ((σ.workers.set w r')[w']?.map fun r => (r.sessionId, r.stage)) =
      if w' = w then some (r'.sessionId, r'.stage) else σ.worker w' := by
  rw [worker]
  split_ifs with heq
  · rw [heq, List.getElem?_set_self (List.getElem?_eq_some_iff.1 h).1]
    rfl
  · rw [List.getElem?_set_ne (Ne.symm heq)]

theorem worker_deliver (sent : List (WorkerId × SessionCommand)) (w : WorkerId) :
    ((deliver σ.workers sent)[w]?.map fun r => (r.sessionId, r.stage)) = σ.worker w := by
  rw [worker, deliver, List.getElem?_mapIdx, Option.map_map]
  rfl

theorem worker_length : σ.worker σ.workers.length = none := by
  rw [worker, List.getElem?_eq_none le_rfl]
  rfl

end Workers

end Embedded

/-! ## What a worker can do -/

/-- a move leads to the next stage, and only an established session forwards, under its node -/
theorem Worker.exec_spec {r r' : Worker} {move : WorkerMove} {sent : List SessionEvent} {events : List RuntimeEvent}
    (h : r.exec move = some (r', sent, events)) :
    r'.sessionId = r.sessionId ∧ Advance r.sessionId r.stage r'.stage sent ∧
      ∀ event ∈ events, r.stage.live = true ∧ ∃ peer message, r.stage.node = some peer ∧
        event = .frameReceived peer (NetworkMessage.toBytes message) := by
  obtain ⟨id, stage, commands⟩ := r
  cases move with
  | ready peer =>
    cases stage with
    | handshaking =>
      cases h
      exact ⟨rfl, .ready peer, nofun⟩
    | established _ _ | ended _ _ => cases h
  | forward message =>
    cases stage with
    | handshaking | ended _ _ => cases h
    | established peer retained =>
      cases retained with
      | some _ => cases h
      | none =>
        cases h
        refine ⟨rfl, .work _ _ _, fun event he => ?_⟩
        cases List.mem_singleton.1 he
        exact ⟨rfl, peer.nodePeerId, message, rfl, rfl⟩
  | receive =>
    cases stage with
    | handshaking | ended _ _ => cases h
    | established peer retained =>
      cases commands with
      | nil => cases retained <;> cases h
      | cons command rest =>
        cases command with
        | disconnect =>
          cases retained <;> cases h <;> exact ⟨rfl, .finish rfl, nofun⟩
        | sendFrame frame =>
          cases retained with
          | none =>
            simp only [exec] at h
            split at h <;> cases h
            · exact ⟨rfl, .work _ _ _, nofun⟩
            · exact ⟨rfl, .work _ _ _, nofun⟩
            · exact ⟨rfl, .finish rfl, nofun⟩
          | some retained =>
            simp only [exec] at h
            split at h <;> cases h
            · exact ⟨rfl, .work _ _ _, nofun⟩
            · exact ⟨rfl, .work _ _ _, nofun⟩
            · exact ⟨rfl, .finish rfl, nofun⟩
  | close =>
    cases stage with
    | handshaking =>
      cases h
      exact ⟨rfl, .finish rfl, nofun⟩
    | established peer retained =>
      cases retained with
      | some _ => cases h
      | none =>
        cases h
        exact ⟨rfl, .finish rfl, nofun⟩
    | ended _ _ => cases h
  | drop =>
    cases stage with
    | handshaking | established _ _ => cases h
    | ended node receiving =>
      cases receiving with
      | false => cases h
      | true =>
        cases h
        exact ⟨rfl, .drop node, nofun⟩

/-! ## The slots of the node -/

def SessionEvent.announced : SessionEvent → Option VerifiedPeer
  | .ready _ verifiedPeer => some verifiedPeer
  | .closed _ _ => none

namespace Embedded

variable {ck : OverflowChecks} {σ σ' : Embedded}

/-- A new connection finds a free slot, the node of a new session has none, and a command goes to sessions whose workers
still read. -/
def Admitted (σ : Embedded) : EmbeddedMove → Prop
  | .manager .accept => σ.manager.peers.HasRoom
  | .manager (.bootstrap network) =>
    ∀ address ∈ σ.manager.bootstrapAddress network, network.connects address = true → σ.manager.peers.HasRoom
  | .manager .sessionEvent =>
    ∀ e ∈ σ.sessionEvents.head?, ∀ peer ∈ e.2.announced, σ.manager.peers.byNodePeer.get? peer.nodePeerId = none
  | .manager .command => ∀ c ∈ σ.commands.head?, ∀ w ∈ σ.manager.targets c.1, σ.isOpen w = true
  | _ => True

def HoldsSlots (σ : Embedded) : Prop :=
  Slots σ.manager.peers σ.manager.sessionCommands σ.worker σ.sessionEvents

theorem HoldsSlots.spawn (h : σ.HoldsSlots) {isOutbound : Bool} {outboundAddr : Option SocketAddr} {peers : PeerRegistry}
    {id : SessionId} (halloc : PeerRegistry.Allocated σ.manager.peers [] isOutbound outboundAddr peers id) (cursor : ℕ) :
    HoldsSlots { σ with
      manager := ⟨σ.manager.config, peers, σ.manager.sessionCommands.insert id σ.workers.length, cursor⟩
      workers := σ.workers ++ [⟨id, .handshaking, []⟩] } := by
  have hslots := Slots.spawn h halloc σ.worker_length
  rwa [← funext (σ.worker_append ⟨id, .handshaking, []⟩)] at hslots

theorem accept_turn (h : σ.HoldsSlots) {result : Except RuntimeError Unit}
    (hturn : σ.managerTurn .accept = some (σ', result)) :
    (result = .ok () ↔ σ.manager.peers.HasRoom) ∧ (result = .ok () → σ'.HoldsSlots) := by
  simp only [managerTurn] at hturn
  rcases σ.manager.spawnSession_spec σ.workers.length false none with ⟨peers, id, hok, hroom, halloc⟩ | ⟨herror, hfull⟩
  · rw [hok] at hturn
    cases hturn
    exact ⟨iff_of_true rfl hroom, fun _ => h.spawn halloc _⟩
  · rw [herror] at hturn
    cases hturn
    exact ⟨iff_of_false nofun hfull, nofun⟩

theorem bootstrap_turn (h : σ.HoldsSlots) {network : Network} {result : Except RuntimeError Unit}
    (hturn : σ.managerTurn (.bootstrap network) = some (σ', result)) :
    (result = .ok () ↔ Admitted σ (.manager (.bootstrap network))) ∧ (result = .ok () → σ'.HoldsSlots) := by
  simp only [managerTurn] at hturn
  rcases σ.manager.bootstrapOnce_spec σ.workers.length network with
    ⟨cursor, hok, hnone⟩ | ⟨address, haddress, hconnects, hspawn⟩
  · rw [hok] at hturn
    cases hturn
    exact ⟨iff_of_true rfl fun address ha hconnects => absurd hconnects (hnone address ha), fun _ => h⟩
  · have hadmitted : Admitted σ (.manager (.bootstrap network)) ↔ σ.manager.peers.HasRoom :=
      ⟨fun hall => hall address haddress hconnects, fun hroom _ _ _ => hroom⟩
    rw [hadmitted]
    rcases hspawn with ⟨cursor, peers, id, hok, hroom, halloc⟩ | ⟨herror, hfull⟩
    · rw [hok] at hturn
      cases hturn
      exact ⟨iff_of_true rfl hroom, fun _ => h.spawn halloc cursor⟩
    · rw [herror] at hturn
      cases hturn
      exact ⟨iff_of_false nofun hfull, nofun⟩

theorem sessionEvent_turn (h : σ.HoldsSlots) {result : Except RuntimeError Unit}
    (hturn : σ.managerTurn .sessionEvent = some (σ', result)) :
    (result = .ok () ↔ Admitted σ (.manager .sessionEvent)) ∧ (result = .ok () → σ'.HoldsSlots) := by
  simp only [managerTurn] at hturn
  split at hturn
  · cases hturn
  · rename_i w event rest hevents
    have hslots : Slots σ.manager.peers σ.manager.sessionCommands σ.worker ((w, event) :: rest) := hevents ▸ h
    have hadmitted : Admitted σ (.manager .sessionEvent) ↔
        ∀ peer ∈ event.announced, σ.manager.peers.byNodePeer.get? peer.nodePeerId = none := by
      rw [Admitted, hevents]
      simp only [List.head?_cons, Option.mem_def, Option.some.injEq, forall_eq']
    rw [hadmitted]
    cases event with
    | closed id node =>
      cases hturn
      exact ⟨iff_of_true rfl (by rintro _ ⟨⟩), fun _ => hslots.closed⟩
    | ready id peer =>
      simp only [SessionEvent.announced, Option.mem_def, Option.some.injEq, forall_eq']
      obtain ⟨session, hs, hnode⟩ := hslots.ready_head
      simp only [NetworkManager.handleSessionEvent, hs] at hturn
      have hput : (σ.manager.peers.put id { session with
          transportPeerId := peer.transportPeerId
          maxFrameLen := peer.maxFrameLen
          maxBlocksPerChunk := peer.maxBlocksPerChunk
          state := .nodeReady }).Consistent := hslots.consistent.put hs rfl
      have hget (other : SessionId) := PeerRegistry.get_put (Option.isSome_of_eq_some hs) { session with
          transportPeerId := peer.transportPeerId
          maxFrameLen := peer.maxFrameLen
          maxBlocksPerChunk := peer.maxBlocksPerChunk
          state := .nodeReady } other
      rcases PeerRegistry.registerNodePeer_spec hput ((hget id).trans (if_pos rfl)) hnode peer.nodePeerId with
        ⟨hnone, peers, hok, hconsistent, hget'⟩ | ⟨htaken, herror⟩
      · rw [hok] at hturn
        cases hturn
        have hslot (other : SessionId) := (hget' other).trans
          (ite_congr rfl (fun _ => rfl) fun hne => (hget other).trans (if_neg hne))
        refine ⟨iff_of_true rfl hnone, fun _ => hslots.ready hconsistent ?_ hslot⟩
        rfl
      · rw [herror] at hturn
        cases hturn
        exact ⟨iff_of_false (by rintro ⟨⟩) htaken, by rintro ⟨⟩⟩

theorem command_turn (h : σ.HoldsSlots) {result : Except RuntimeError Unit}
    (hturn : σ.managerTurn .command = some (σ', result)) :
    (result = .ok () ↔ Admitted σ (.manager .command)) ∧ σ'.HoldsSlots := by
  simp only [managerTurn] at hturn
  split at hturn
  · cases hturn
  · rename_i command cause rest hcommands
    cases hturn
    constructor
    · rw [Admitted, hcommands]
      simp only [List.head?_cons, Option.mem_def, Option.some.injEq, forall_eq']
      exact σ.manager.handleNetworkCommand_ok_iff σ.isOpen command
    · rwa [HoldsSlots, ← funext (σ.worker_deliver (σ.manager.handleNetworkCommand σ.isOpen command).1)] at h

/-- a turn of the network manager's loop ends without an error exactly if it meets the condition -/
theorem managerTurn_spec (h : σ.HoldsSlots) {move : ManagerMove} {result : Except RuntimeError Unit}
    (hturn : σ.managerTurn move = some (σ', result)) :
    (result = .ok () ↔ Admitted σ (.manager move)) ∧ (result = .ok () → σ'.HoldsSlots) := by
  cases move with
  | accept => exact accept_turn h hturn
  | acceptError =>
    cases hturn
    exact ⟨iff_of_true rfl trivial, fun _ => h⟩
  | bootstrap network => exact bootstrap_turn h hturn
  | sessionEvent => exact sessionEvent_turn h hturn
  | command => exact (command_turn h hturn).imp id fun hslots _ => hslots

theorem managerTurn_error {move : ManagerMove} {result : Except RuntimeError Unit}
    (hturn : σ.managerTurn move = some (σ', result)) : σ'.error = σ.error := by
  cases move with
  | accept =>
    simp only [managerTurn] at hturn
    split at hturn <;> cases hturn <;> rfl
  | acceptError =>
    cases hturn
    rfl
  | bootstrap network =>
    simp only [managerTurn] at hturn
    split at hturn <;> cases hturn <;> rfl
  | sessionEvent =>
    simp only [managerTurn] at hturn
    split at hturn
    · cases hturn
    · split at hturn <;> cases hturn <;> rfl
  | command =>
    simp only [managerTurn] at hturn
    split at hturn <;> cases hturn
    rfl

/-- a move of the network manager -/
theorem exec_manager {move : ManagerMove} (hexec : σ.exec ck (.manager move) = some σ') :
    σ.error = none ∧ ∃ σ₁ result, σ.managerTurn move = some (σ₁, result) ∧ (result = .ok () ↔ σ'.error = none) ∧
      σ' = { σ₁ with error := σ'.error } := by
  rw [exec] at hexec
  split_ifs at hexec with herror
  obtain ⟨⟨σ₁, result⟩, hturn, hσ'⟩ := Option.map_eq_some_iff.1 hexec
  refine ⟨herror, σ₁, result, hturn, ?_⟩
  cases result with
  | ok _ =>
    cases hσ'
    exact ⟨iff_of_true rfl ((managerTurn_error hturn).trans herror), rfl⟩
  | error e =>
    cases hσ'
    exact ⟨iff_of_false nofun nofun, rfl⟩

/-- as long as the network manager runs, every move keeps the slots -/
theorem exec_slots {move : EmbeddedMove} (h : σ.HoldsSlots) (hexec : σ.exec ck move = some σ') (hrunning : σ'.error = none) :
    σ'.HoldsSlots := by
  cases move with
  | manager move =>
    obtain ⟨-, σ₁, result, hturn, hok, hsame⟩ := exec_manager hexec
    rw [hsame]
    exact (managerTurn_spec h hturn).2 (hok.2 hrunning)
  | worker w move =>
    obtain ⟨⟨r', sent, events⟩, hbind, rfl⟩ := Option.map_eq_some_iff.1 hexec
    obtain ⟨r, hr, hmove⟩ := Option.bind_eq_some_iff.1 hbind
    obtain ⟨hid, hadvance, -⟩ := Worker.exec_spec hmove
    have hw : σ.worker w = some (r.sessionId, r.stage) := by rw [worker, hr]; rfl
    have hslots := Slots.work h hw hadvance
    rwa [← hid, ← funext (σ.worker_set hr)] at hslots
  | arrive event =>
    simp only [exec] at hexec
    split_ifs at hexec
    cases hexec
    exact h
  | process =>
    simp only [exec] at hexec
    split at hexec
    · split at hexec <;> cases hexec
      exact h
    · cases hexec
  | perform =>
    simp only [exec] at hexec
    split at hexec <;> cases hexec
    exact h

theorem holdsSlots_start (config : NetworkConfig) (blockchain : Blockchain) : (start config blockchain).HoldsSlots :=
  Slots.start config.maxPeers

/-- the network manager's error does not change but by its own moves -/
theorem exec_error {move : EmbeddedMove} (hexec : σ.exec ck move = some σ') (hother : ∀ m, move ≠ .manager m) :
    σ'.error = σ.error := by
  cases move with
  | manager move => exact absurd rfl (hother move)
  | worker w move =>
    obtain ⟨_, -, rfl⟩ := Option.map_eq_some_iff.1 hexec
    rfl
  | arrive event =>
    simp only [exec] at hexec
    split_ifs at hexec
    cases hexec
    rfl
  | process =>
    simp only [exec] at hexec
    split at hexec
    · split at hexec <;> cases hexec
      rfl
    · cases hexec
  | perform =>
    simp only [exec] at hexec
    split at hexec <;> cases hexec
    rfl

/-- a move of the network manager ends without an error exactly if it meets the condition -/
theorem manager_error_iff (h : σ.HoldsSlots) {move : ManagerMove} (hexec : σ.exec ck (.manager move) = some σ') :
    σ'.error = none ↔ Admitted σ (.manager move) := by
  obtain ⟨-, σ₁, result, hturn, hok, -⟩ := exec_manager hexec
  rw [← hok, (managerTurn_spec h hturn).1]

/-- **The network manager keeps running.** In every run in which a new connection finds a free slot, the node of a new
session has none, and a command goes to sessions whose workers still read: the network manager has returned no error, every
established session whose `Ready` was taken has its slot and is what its node's frames go to, and the network manager's
next turn ends without an error exactly if it meets the condition. -/
theorem network_manager_keeps_running (h : (machine ck).Reached Admitted σ) :
    σ.error = none ∧
    (∀ w r, σ.workers[w]? = some r → ∀ peer retained, r.stage = .established peer retained →
      pending w σ.sessionEvents = [] → σ.manager.peers.sessionForNode peer.nodePeerId = some r.sessionId ∧
        σ.manager.sessionCommands.get? r.sessionId = some w) ∧
    ∀ move σ', σ.exec ck (.manager move) = some σ' → (σ'.error = none ↔ Admitted σ (.manager move)) := by
  have hinv : σ.error = none ∧ σ.HoldsSlots := by
    refine Machine.Reached.invariant (I := fun σ : Embedded => σ.error = none ∧ σ.HoldsSlots) ?_ ?_ h
    · rintro _ ⟨config, blockchain, rfl⟩
      exact ⟨rfl, holdsSlots_start config blockchain⟩
    · intro σ move σ' hI hcond hexec
      replace hexec : σ.exec ck move = some σ' := hexec
      have herror : σ'.error = none := by
        cases move with
        | manager move => exact (manager_error_iff hI.2 hexec).2 hcond
        | worker _ _ | arrive _ | process | perform => exact (exec_error hexec nofun).trans hI.1
      exact ⟨herror, exec_slots hI.2 hexec herror⟩
  refine ⟨hinv.1, fun w r hr peer retained hstage hempty => ?_, fun move σ' hexec => manager_error_iff hinv.2 hexec⟩
  have hw : σ.worker w = some (r.sessionId, .established peer retained) := by rw [worker, hr, ← hstage]; rfl
  obtain ⟨session, hs, hchannel, hcase⟩ := hinv.2.established hw
  obtain ⟨hnode, -⟩ := hcase.resolve_left fun hannounced => hannounced.2 hempty
  exact ⟨(hinv.2.consistent _ _).2 ⟨session, hs, hnode⟩, hchannel⟩

instance (σ : Embedded) (move : EmbeddedMove) : Decidable (Admitted σ move) :=
  match move with
  | .manager .accept => inferInstanceAs (Decidable σ.manager.peers.HasRoom)
  | .manager .acceptError => .isTrue trivial
  | .manager (.bootstrap network) =>
    inferInstanceAs (Decidable (∀ address ∈ σ.manager.bootstrapAddress network,
      network.connects address = true → σ.manager.peers.HasRoom))
  | .manager .sessionEvent =>
    inferInstanceAs (Decidable (∀ e ∈ σ.sessionEvents.head?, ∀ peer ∈ e.2.announced,
      σ.manager.peers.byNodePeer.get? peer.nodePeerId = none))
  | .manager .command =>
    inferInstanceAs (Decidable (∀ c ∈ σ.commands.head?, ∀ w ∈ σ.manager.targets c.1, σ.isOpen w = true))
  | .worker _ _ | .arrive _ | .process | .perform => .isTrue trivial

end Embedded

end Embedded

section Witness

open Sample

/-- what is known of a peer after its hello -/
def verified (nodePeerId : PeerId) : VerifiedPeer := ⟨nodePeerId, [1], 64, 8⟩

/-! ### One session -/

def oneSession : List EmbeddedMove :=
  [.manager .accept, .worker 0 (.ready (verified peer)), .manager .sessionEvent]

def connected : Embedded :=
  ((Embedded.machine .release).replay Embedded.Admitted oneSession (.start .default .new)).get (by decide +kernel)

theorem connected_reached : (Embedded.machine .release).Reached Embedded.Admitted connected :=
  Machine.Reached.of_replay (.start ⟨_, _, rfl⟩) (Option.some_get _).symm

theorem network_manager_keeps_running_of_connected :
    connected.error = none ∧ connected.manager.peers.sessionForNode peer = some 0 :=
  have h := Embedded.network_manager_keeps_running connected_reached
  have hworker := (Option.some_get (x := connected.workers[0]?) (by decide +kernel)).symm
  ⟨h.1, (h.2.1 0 _ hworker (verified peer) none rfl rfl).1⟩

/-! ### Surplus and duplicate connections -/

/-- one connection more than there are slots -/
def surplus : Embedded :=
  ((Embedded.machine .release).replay (fun _ _ => True) (List.replicate 17 (.manager .accept)) (.start .default .new)).get
    (by decide +kernel)

/-- a node becomes ready in two sessions -/
def duplicate : Embedded :=
  ((Embedded.machine .release).replay (fun _ _ => True)
    [.manager .accept, .manager .accept, .worker 0 (.ready (verified peer)), .worker 1 (.ready (verified peer)),
      .manager .sessionEvent, .manager .sessionEvent] (.start .default .new)).get (by decide +kernel)

/-- the loop of the network manager ends with an error -/
theorem full_registry_and_duplicate_stop_the_manager :
    (∃ σ, (Embedded.machine .release).Reached (fun _ _ => True) σ ∧
      σ.error = some (.config "peer registry is full")) ∧
    ∃ σ, (Embedded.machine .release).Reached (fun _ _ => True) σ ∧
      σ.error = some (.config "node peer is already registered to another session") :=
  ⟨⟨surplus, Machine.Reached.of_replay (.start ⟨_, _, rfl⟩) (Option.some_get _).symm, by decide +kernel⟩,
    ⟨duplicate, Machine.Reached.of_replay (.start ⟨_, _, rfl⟩) (Option.some_get _).symm, by decide +kernel⟩⟩

end Witness

end Erp

end RustProof
