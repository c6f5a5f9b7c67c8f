/-
Where a sync response of the embedded node goes (erp-runtime).

A session worker forwards a sync request to the engine under the node of its session and waits. The engine answers with one
command, which names the node and not the session; the network manager looks the node up and puts the response on the
command channel it finds. `Ready`, which registers the node, and the command come to the network manager over different
channels.

`RoutingInv`: who forwarded a request has the node that the response names.

Results:
- `sync_responses_reach_their_session`: a response for a live session goes to its command channel and to no other, in runs
  in which the network manager takes a session's `Ready` before the responses to its requests;
- `response_overtakes_ready`: else the response is dropped, or goes to another session of the node.
-/
import RustProof.Runtime.Embedded

namespace RustProof

namespace Erp

section Routing

variable [Crypto]

namespace Embedded

variable {ck : OverflowChecks} {σ σ' : Embedded}

/-- the node of a worker's session -/
def node (σ : Embedded) (w : WorkerId) : Option PeerId := (σ.worker w).bind fun s => s.2.node

/-- a response is not taken before the `Ready` of the live session that waits for it -/
def Prompt (σ : Embedded) : EmbeddedMove → Prop
  | .manager .command => ∀ c ∈ σ.commands.head?, c.2.event.ask.isSome = true → ∀ w ∈ c.2.worker, σ.isLive w = true →
      pending w σ.sessionEvents = []
  | _ => True

/-! ## Who asked -/

/-- the worker that forwarded a sync request has the node it was forwarded under -/
def Behind (σ : Embedded) (cause : Cause) : Prop :=
  ∀ n request w, cause.event.ask = some (n, request) → cause.worker = some w → σ.node w = some n

/-- a sync request is answered by one response, to its node -/
def Addressed (command : NetworkCommand) (cause : Cause) : Prop :=
  ∀ n request, cause.event.ask = some (n, request) →
    ∃ response, command = .sendFrame n (NetworkMessage.syncResponse response).toBytes

structure RoutingInv (σ : Embedded) : Prop where
  slots : σ.error = none → σ.HoldsSlots
  events : ∀ e ∈ σ.events, Behind σ ⟨e.1, e.2⟩
  actions : ∀ a ∈ σ.actions, Behind σ a.2 ∧ ∀ c, a.1.networkCommand = some c → Addressed c a.2
  commands : ∀ c ∈ σ.commands, Behind σ c.2 ∧ Addressed c.1 c.2
  routed : ∀ r ∈ σ.routed, r.live = true → r.receivers = [r.worker]

theorem Behind.mono (hnode : ∀ w n, σ.node w = some n → σ'.node w = some n) {cause : Cause} (h : Behind σ cause) :
    Behind σ' cause :=
  fun n request w hask hw => hnode w n (h n request w hask hw)

theorem Behind.unforwarded (σ : Embedded) (event : RuntimeEvent) : Behind σ ⟨event, none⟩ := nofun

theorem ask_frameReceived {n n' : PeerId} {frame : Frame} {request : SyncRequest}
    (h : (RuntimeEvent.frameReceived n frame).ask = some (n', request)) : n = n' := by
  simp only [RuntimeEvent.ask] at h
  split at h
  · cases h
    rfl
  · cases h

/-! ## Where a response goes -/

/-- the node of a live worker is that of its established session -/
theorem established_of_live {w : WorkerId} {n : PeerId} (hnode : σ.node w = some n) (hlive : σ.isLive w = true) :
    ∃ id peer retained, σ.worker w = some (id, .established peer retained) ∧ peer.nodePeerId = n ∧ σ.isOpen w = true := by
  obtain ⟨⟨id, stage, commands⟩, hr, hrlive⟩ := (Option.any_eq_true _ _).1 hlive
  rw [node, worker, hr] at hnode
  rw [worker, isOpen, hr]
  cases stage with
  | handshaking => cases hnode
  | established peer retained => exact ⟨id, peer, retained, rfl, Option.some.inj hnode, rfl⟩
  | ended => cases hrlive

/-- a response for a live session goes to its channel, and only there, exactly if its `Ready` was taken -/
theorem response_iff (hslots : σ.HoldsSlots) {w : WorkerId} {n : PeerId} (hnode : σ.node w = some n)
    (hlive : σ.isLive w = true) (frame : Frame) :
    (σ.manager.handleNetworkCommand σ.isOpen (.sendFrame n frame)).1 = [(w, .sendFrame frame)] ↔
      pending w σ.sessionEvents = [] := by
  obtain ⟨id, peer, retained, hw, rfl, hopen⟩ := established_of_live hnode hlive
  obtain ⟨session, hs, hchannel, hcase⟩ := hslots.established hw
  rw [NetworkManager.handleNetworkCommand, NetworkManager.sendFrameToPeer, PeerRegistry.sessionForNode]
  rcases hcase with ⟨hnone, hpending⟩ | ⟨hsome, hpending⟩
  · -- whatever session the node is registered for, it is not this one
    refine iff_of_false (fun hsends => ?_) hpending
    cases hid : σ.manager.peers.byNodePeer.get? peer.nodePeerId with
    | none =>
      rw [hid] at hsends
      cases hsends
    | some id' =>
      rw [hid] at hsends
      dsimp only at hsends
      cases hchannel' : σ.manager.sessionCommands.get? id' with
      | none =>
        rw [hchannel'] at hsends
        cases hsends
      | some w' =>
        rw [hchannel'] at hsends
        dsimp only [NetworkManager.sendCommand] at hsends
        split_ifs at hsends
        obtain ⟨rfl, -⟩ := Prod.mk.inj (List.singleton_inj.1 hsends)
        obtain ⟨stage, hw'⟩ := hslots.channel id' w' hchannel'
        obtain ⟨rfl, -⟩ := Prod.mk.inj (Option.some.inj (hw.symm.trans hw'))
        obtain ⟨session', hs', hn'⟩ := (hslots.consistent _ _).1 hid
        cases hs.symm.trans hs'
        cases hnone.symm.trans hn'
  · refine iff_of_true ?_ hpending
    rw [(hslots.consistent _ _).2 ⟨session, hs, hsome⟩]
    dsimp only
    rw [hchannel]
    dsimp only [NetworkManager.sendCommand]
    rw [if_pos hopen]

/-! ## Moves -/

theorem node_append (r : Worker) {w : WorkerId} {n : PeerId} (h : σ.node w = some n) :
    (((σ.workers ++ [r])[w]?.map fun r => (r.sessionId, r.stage)).bind fun s => s.2.node) = some n := by
  rw [worker_append, if_neg]
  · exact h
  · rintro rfl
    rw [node, worker_length] at h
    exact nomatch h

/-- what a turn of the network manager leaves as it is, unless it takes a command -/
theorem managerTurn_frame {move : ManagerMove} {result : Except RuntimeError Unit} (hmove : move ≠ .command)
    (hturn : σ.managerTurn move = some (σ', result)) :
    (∀ w n, σ.node w = some n → σ'.node w = some n) ∧
    (∃ more : List RuntimeEvent, σ'.events = σ.events ++ more.map fun e => (e, none)) ∧
    σ'.actions = σ.actions ∧ σ'.commands = σ.commands ∧ σ'.routed = σ.routed := by
  have hsame {σ₁ : Embedded} (hworkers : σ₁.workers = σ.workers) (w : WorkerId) (n : PeerId) (h : σ.node w = some n) :
      σ₁.node w = some n := by
    rw [node, worker, hworkers]
    exact h
  have hevents : ∃ more : List RuntimeEvent, σ.events = σ.events ++ more.map fun e => (e, none) :=
    ⟨[], (List.append_nil _).symm⟩
  cases move with
  | accept =>
    simp only [managerTurn] at hturn
    split at hturn
    · cases hturn
      exact ⟨hsame rfl, hevents, rfl, rfl, rfl⟩
    · cases hturn
      exact ⟨fun w n => node_append _, hevents, rfl, rfl, rfl⟩
  | acceptError =>
    cases hturn
    exact ⟨hsame rfl, hevents, rfl, rfl, rfl⟩
  | bootstrap network =>
    simp only [managerTurn] at hturn
    split at hturn
    · cases hturn
      exact ⟨hsame rfl, hevents, rfl, rfl, rfl⟩
    · cases hturn
      exact ⟨hsame rfl, hevents, rfl, rfl, rfl⟩
    · cases hturn
      exact ⟨fun w n => node_append _, hevents, rfl, rfl, rfl⟩
  | sessionEvent =>
    simp only [managerTurn] at hturn
    split at hturn
    · cases hturn
    · split at hturn
      · cases hturn
        exact ⟨hsame rfl, hevents, rfl, rfl, rfl⟩
      · cases hturn
        exact ⟨hsame rfl, ⟨_, rfl⟩, rfl, rfl, rfl⟩
  | command => exact absurd rfl hmove

/-- the network manager has not returned before a move if it has not after it -/
theorem exec_running {move : EmbeddedMove} (hexec : σ.exec ck move = some σ') (h : σ'.error = none) : σ.error = none := by
  cases move with
  | manager move => exact (exec_manager hexec).1
  | worker _ _ | arrive _ | process | perform => exact (exec_error hexec nofun).symm.trans h

namespace RoutingInv

theorem start (config : NetworkConfig) (blockchain : Blockchain) : RoutingInv (.start config blockchain) where
  slots _ := holdsSlots_start config blockchain
  events := nofun
  actions := nofun
  commands := nofun
  routed := nofun

/-- the network manager takes something else than a command -/
theorem manager (hI : RoutingInv σ) {move : ManagerMove} (hmove : move ≠ .command)
    (hexec : σ.exec ck (.manager move) = some σ') : RoutingInv σ' := by
  have hslots := exec_slots (hI.slots (exec_manager hexec).1) hexec
  obtain ⟨-, σ₁, result, hturn, -, hsame⟩ := exec_manager hexec
  obtain ⟨hnode, ⟨more, hevents⟩, hactions, hcommands, hrouted⟩ := managerTurn_frame hmove hturn
  have hmono {cause : Cause} (h : Behind σ cause) : Behind σ' cause := h.mono fun w n hw => by
    rw [hsame]
    exact hnode w n hw
  refine ⟨hslots, fun e he => ?_, fun a ha => ?_, fun c hc => ?_, fun r hr => ?_⟩
  · rw [hsame] at he
    rcases List.mem_append.1 (hevents ▸ he) with he | he
    · exact hmono (hI.events e he)
    · obtain ⟨event, -, rfl⟩ := List.mem_map.1 he
      exact .unforwarded _ event
  · rw [hsame] at ha
    exact (hI.actions a (hactions ▸ ha)).imp hmono id
  · rw [hsame] at hc
    exact (hI.commands c (hcommands ▸ hc)).imp hmono id
  · rw [hsame] at hr
    exact hI.routed r (hrouted ▸ hr)

theorem command (hI : RoutingInv σ) (hcond : Prompt σ (.manager .command))
    (hexec : σ.exec ck (.manager .command) = some σ') : RoutingInv σ' := by
  have hrunning := (exec_manager hexec).1
  have hslots := exec_slots (hI.slots hrunning) hexec
  obtain ⟨-, σ₁, result, hturn, -, hsame⟩ := exec_manager hexec
  simp only [managerTurn] at hturn
  split at hturn
  · cases hturn
  · rename_i command cause rest hcommands
    cases hturn
    obtain ⟨hbehind, haddressed⟩ := hI.commands (command, cause) (hcommands ▸ List.mem_cons_self)
    have hmono {cause : Cause} (h : Behind σ cause) : Behind σ' cause := h.mono fun w n hw => by
      rw [hsame, node, worker]
      dsimp only
      rw [worker_deliver]
      exact hw
    refine ⟨hslots, fun e he => ?_, fun a ha => ?_, fun c hc => ?_, fun r hr hlive => ?_⟩
    · rw [hsame] at he
      exact hmono (hI.events e he)
    · rw [hsame] at ha
      exact (hI.actions a ha).imp hmono id
    · rw [hsame] at hc
      exact (hI.commands c (hcommands ▸ List.mem_cons_of_mem _ hc)).imp hmono id
    · rw [hsame] at hr
      rcases List.mem_append.1 hr with hr | hr
      · exact hI.routed r hr hlive
      · -- the response that was taken
        split at hr
        · rename_i ask w hask hw
          cases List.mem_singleton.1 hr
          obtain ⟨response, rfl⟩ := haddressed ask.1 ask.2 hask
          have hready : pending w σ.sessionEvents = [] :=
            hcond (_, cause) (by rw [hcommands]; rfl) (Option.isSome_of_eq_some hask) w hw hlive
          rw [(response_iff (hI.slots hrunning) (hbehind ask.1 ask.2 w hask hw) hlive _).2 hready]
          rfl
        · cases hr

theorem work (hI : RoutingInv σ) {w : WorkerId} {move : WorkerMove} (hexec : σ.exec ck (.worker w move) = some σ') :
    RoutingInv σ' := by
  have hslots (herror : σ'.error = none) := exec_slots (hI.slots (exec_running hexec herror)) hexec herror
  obtain ⟨⟨r', sent, events⟩, hbind, rfl⟩ := Option.map_eq_some_iff.1 hexec
  obtain ⟨r, hr, hmove⟩ := Option.bind_eq_some_iff.1 hbind
  obtain ⟨-, hadvance, hforward⟩ := Worker.exec_spec hmove
  have hmono (w' : WorkerId) (n : PeerId) (hw : σ.node w' = some n) :
      (((σ.workers.set w r')[w']?.map fun r => (r.sessionId, r.stage)).bind fun s => s.2.node) = some n := by
    rw [worker_set σ hr]
    split_ifs with heq
    · rw [heq, node, worker, hr] at hw
      exact hadvance.node hw
    · exact hw
  refine ⟨hslots, fun e he => ?_, fun a ha => ?_, fun c hc => ?_, hI.routed⟩
  · rcases List.mem_append.1 he with he | he
    · exact (hI.events e he).mono hmono
    · -- a frame is forwarded under the node of the session
      obtain ⟨event, hevent, rfl⟩ := List.mem_map.1 he
      intro n request w' hask hw'
      cases hw'
      obtain ⟨-, peer, message, hnode, rfl⟩ := hforward event hevent
      refine hmono w n ?_
      rw [node, worker, hr, ← ask_frameReceived hask]
      exact hnode
  · exact (hI.actions a ha).imp (Behind.mono hmono) id
  · exact (hI.commands c hc).imp (Behind.mono hmono) id

theorem arrive (hI : RoutingInv σ) {event : RuntimeEvent} (hexec : σ.exec ck (.arrive event) = some σ') :
    RoutingInv σ' := by
  simp only [exec] at hexec
  split_ifs at hexec
  cases hexec
  refine ⟨hI.slots, fun e he => ?_, hI.actions, hI.commands, hI.routed⟩
  rcases List.mem_append.1 he with he | he
  · exact hI.events e he
  · cases List.mem_singleton.1 he
    exact .unforwarded _ event

theorem process (hI : RoutingInv σ) (hexec : σ.exec ck .process = some σ') : RoutingInv σ' := by
  simp only [exec] at hexec
  split at hexec
  · rename_i event worker rest hactions hevents
    split at hexec
    · rename_i e' acts hrun
      cases hexec
      refine ⟨hI.slots, fun e he => hI.events e (hevents ▸ List.mem_cons_of_mem _ he), fun a ha => ?_, hI.commands,
        hI.routed⟩
      obtain ⟨action, haction, rfl⟩ := List.mem_map.1 ha
      refine ⟨hI.events (event, worker) (hevents ▸ List.mem_cons_self), fun c hc n request hask => ?_⟩
      obtain ⟨response, -, hcommands⟩ := (RuntimeEvent.run_commands hrun).1 n request hask
      have hmem : c ∈ acts.filterMap NodeAction.networkCommand := List.mem_filterMap.2 ⟨action, haction, hc⟩
      rw [hcommands] at hmem
      exact ⟨response, List.mem_singleton.1 hmem⟩
    · cases hexec
  · cases hexec

theorem perform (hI : RoutingInv σ) (hexec : σ.exec ck .perform = some σ') : RoutingInv σ' := by
  simp only [exec] at hexec
  split at hexec
  · rename_i action cause rest hactions
    cases hexec
    have hhead := hI.actions (action, cause) (hactions ▸ List.mem_cons_self)
    refine ⟨hI.slots, hI.events, fun a ha => hI.actions a (hactions ▸ List.mem_cons_of_mem _ ha), fun c hc => ?_,
      hI.routed⟩
    rcases List.mem_append.1 hc with hc | hc
    · exact hI.commands c hc
    · obtain ⟨command, hcommand, rfl⟩ := Option.map_eq_some_iff.1 (Option.mem_toList.1 hc)
      exact ⟨hhead.1, hhead.2 command hcommand⟩
  · cases hexec

theorem step (hI : RoutingInv σ) {move : EmbeddedMove} (hcond : Prompt σ move) (hexec : σ.exec ck move = some σ') :
    RoutingInv σ' := by
  cases move with
  | manager move =>
    cases move with
    | command => exact hI.command hcond hexec
    | accept | acceptError | bootstrap _ | sessionEvent =>
      refine hI.manager ?_ hexec
      exact nofun
  | worker w move => exact hI.work hexec
  | arrive event => exact hI.arrive hexec
  | process => exact hI.process hexec
  | perform => exact hI.perform hexec

end RoutingInv

/-- **Sync responses reach the session that waits for them.** In every run in which the network manager takes a live
session's `Ready` before a response to it: every response that was taken while the session of its request was live went to
the command channel of that session and nowhere else, and the next response does so exactly if the session's `Ready` was
taken. -/
theorem sync_responses_reach_their_session (h : (machine ck).Reached Prompt σ) :
    (∀ r ∈ σ.routed, r.live = true → r.receivers = [r.worker]) ∧
    ∀ command cause rest n request w, σ.error = none → σ.commands = (command, cause) :: rest →
      cause.event.ask = some (n, request) → cause.worker = some w → σ.isLive w = true →
      ∃ response, command = .sendFrame n (NetworkMessage.syncResponse response).toBytes ∧
        ((σ.manager.handleNetworkCommand σ.isOpen command).1 =
            [(w, .sendFrame (NetworkMessage.syncResponse response).toBytes)] ↔
          pending w σ.sessionEvents = []) := by
  have hI : RoutingInv σ := by
    refine Machine.Reached.invariant (I := RoutingInv) ?_ (fun _ _ _ hI hcond hexec => hI.step hcond hexec) h
    rintro _ ⟨config, blockchain, rfl⟩
    exact .start config blockchain
  refine ⟨hI.routed, fun command cause rest n request w hrunning hcommands hask hw hlive => ?_⟩
  obtain ⟨hbehind, haddressed⟩ := hI.commands (command, cause) (hcommands ▸ List.mem_cons_self)
  obtain ⟨response, rfl⟩ := haddressed n request hask
  exact ⟨response, rfl, response_iff (hI.slots hrunning) (hbehind n request w hask hw) hlive _⟩

instance (σ : Embedded) (move : EmbeddedMove) : Decidable (Prompt σ move) :=
  match move with
  | .manager .command =>
    inferInstanceAs (Decidable (∀ c ∈ σ.commands.head?, c.2.event.ask.isSome = true → ∀ w ∈ c.2.worker,
      σ.isLive w = true → pending w σ.sessionEvents = []))
  | .manager .accept | .manager .acceptError | .manager (.bootstrap _) | .manager .sessionEvent | .worker _ _ | .arrive _
  | .process | .perform => .isTrue trivial

end Embedded

end Routing

section Witness

open Sample

/-! ### A peer connects and asks for the first blocks -/

/-- from the connection to the command with the response -/
def asked : List EmbeddedMove :=
  [.manager .accept, .worker 0 (.ready (verified peer)), .worker 0 (.forward (.syncRequest ⟨0, 5⟩)), .process, .perform]

def answered : Embedded :=
  ((Embedded.machine .release).replay Embedded.Prompt (asked ++ [.manager .sessionEvent, .manager .command])
    (.start .default .new)).get (by decide +kernel)

theorem answered_reached : (Embedded.machine .release).Reached Embedded.Prompt answered :=
  Machine.Reached.of_replay (.start ⟨_, _, rfl⟩) (Option.some_get _).symm

theorem sync_responses_reach_their_session_of_answered :
    answered.routed.map (fun r => (r.worker, r.live)) = [(0, true)] ∧ ∀ r ∈ answered.routed, r.receivers = [r.worker] :=
  ⟨by decide +kernel, fun r hr => (Embedded.sync_responses_reach_their_session answered_reached).1 r hr
    ((by decide +kernel : ∀ r ∈ answered.routed, r.live = true) r hr)⟩

/-! ### The response comes before `Ready` -/

def dropped : Embedded :=
  ((Embedded.machine .release).replay (fun _ _ => True) (asked ++ [.manager .command]) (.start .default .new)).get
    (by decide +kernel)

/-- the node has a session, and asks in a second one -/
def crossed : Embedded :=
  ((Embedded.machine .release).replay (fun _ _ => True)
    [.manager .accept, .manager .accept, .worker 0 (.ready (verified peer)), .worker 1 (.ready (verified peer)),
      .worker 1 (.forward (.syncRequest ⟨0, 5⟩)), .process, .perform, .manager .sessionEvent, .manager .command]
    (.start .default .new)).get (by decide +kernel)

/-- the response goes nowhere, or to the session of worker 0 where worker 1 waits -/
theorem response_overtakes_ready :
    (∃ σ, (Embedded.machine .release).Reached (fun _ _ => True) σ ∧ ⟨0, true, []⟩ ∈ σ.routed) ∧
    ∃ σ, (Embedded.machine .release).Reached (fun _ _ => True) σ ∧ ⟨1, true, [0]⟩ ∈ σ.routed :=
  ⟨⟨dropped, Machine.Reached.of_replay (.start ⟨_, _, rfl⟩) (Option.some_get _).symm, by decide +kernel⟩,
    ⟨crossed, Machine.Reached.of_replay (.start ⟨_, _, rfl⟩) (Option.some_get _).symm, by decide +kernel⟩⟩

end Witness

end Erp

end RustProof
