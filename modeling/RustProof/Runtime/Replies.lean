/-
Which request a sync response answers (rp-runtime).

The network manager, the node manager with its engine, and two FIFO channels between them: events to the engine, commands
back. A sync request comes in on a channel of its own, which waits in the queue of its node; the frame goes to the engine,
and the engine's response, which names the node but no request, goes out on the first channel of that queue. Steps of the
parties, reports of the swarm and events of the wake loop and of storage interleave in any order.

Not part of the program is what is recorded about the past: every event carries the channel it came in on, if any
(`Origin.channel`), every command the event it was made for and the engine at that time, and `received` and `sent` list the
requests by their channels and the responses that went out.

Results:
- `sync_responses_answer_their_request`: a response goes out on the channel of the request it was computed for, in runs in
  which a sync request is accepted only when as many requests of its node are in work as channels wait, and a response to
  a node that is not registered is dropped only when no channel waits;
- `gossip_takes_the_channel`: a sync request that came in as a gossipsub message, which has no channel, takes the channel
  of the next request. A closed connection does the same: it drops the queue but not the work.
-/
import RustProof.Lib.Machine
import RustProof.Runtime.Network

namespace RustProof

section Replies

variable [Crypto]

/-! ## The parties -/

/-- where a command comes from -/
structure Origin where
  /-- the engine that took the event -/
  engine : NodeEngine
  event : RuntimeEvent
  channel : Option Channel

/-- a response that went out -/
structure Sent where
  channel : Channel
  response : SyncResponse
  origin : Origin

structure Host where
  manager : NetworkManager
  /-- the manager's loop has not ended with an error -/
  running : Bool
  engine : NodeEngine
  /-- the event channel -/
  events : List (RuntimeEvent × Option Channel)
  /-- the actions of the last step that the node manager has still to handle -/
  actions : List (NodeAction × Origin)
  /-- the command channel -/
  commands : List (NetworkCommand × Origin)
  /-- the inbound sync requests, in the order of their channels -/
  received : List SyncRequest
  sent : List Sent

/-- what one party does next -/
inductive HostMove where
  /-- the manager takes what the swarm reports -/
  | swarm (event : SwarmEvent)
  /-- from the wake loop or from storage -/
  | arrive (event : RuntimeEvent)
  | process
  | perform
  /-- the manager takes a command -/
  | command

def RuntimeEvent.fromNetwork : RuntimeEvent → Bool
  | .peerConnected _ | .peerDisconnected _ | .frameReceived _ _ => true
  | _ => false

def SwarmEvent.request : SwarmEvent → Option SyncRequest
  | .syncRequest _ request _ => some request
  | _ => none

def SwarmCall.sent (origin : Origin) : SwarmCall → Option Sent
  | .syncResponse channel response => some ⟨channel, response, origin⟩
  | _ => none

namespace Host

def start (blockchain : Blockchain) : Host :=
  { manager := .new
    running := true
    engine := .new blockchain
    events := []
    actions := []
    commands := []
    received := []
    sent := [] }

/-- the state after a move, if it is possible -/
def exec (ck : OverflowChecks) (σ : Host) : HostMove → Option Host
  | .swarm event =>
    -- a new request has a new channel
    if σ.running = true ∧ event.channel.all (fun channel => channel == σ.received.length) = true then
      let (manager, events, _) := σ.manager.handleSwarmEvent event
      some { σ with
        manager := manager
        events := σ.events ++ events.map fun e => (e, event.channel)
        received := σ.received ++ event.request.toList }
    else none
  | .arrive event =>
    if event.fromNetwork = false then some { σ with events := σ.events ++ [(event, none)] } else none
  | .process =>
    match σ.actions, σ.events with
    | [], (event, channel) :: rest =>
      match event.run ck σ.engine with
      | .ok (e', acts) =>
        some { σ with engine := e', events := rest, actions := acts.map fun a => (a, ⟨σ.engine, event, channel⟩) }
      | .error _ => none
    | _, _ => none
  | .perform =>
    match σ.actions with
    | (action, origin) :: rest =>
      some { σ with actions := rest, commands := σ.commands ++ (action.networkCommand.map fun c => (c, origin)).toList }
    | [] => none
  | .command =>
    match σ.running, σ.commands with
    | true, (command, origin) :: rest =>
      match σ.manager.handleCommand command with
      | .ok (manager, calls) =>
        some { σ with manager := manager, commands := rest, sent := σ.sent ++ calls.filterMap (SwarmCall.sent origin) }
      | .error _ => some { σ with running := false }
    | _, _ => none

/-- all interleavings of the parties -/
def machine (ck : OverflowChecks) : Machine Host HostMove where
  init σ := ∃ blockchain, σ = .start blockchain
  exec := exec ck

end Host

/-! ## Requests in work -/

/-- the channel that an event of `node` waits for, if it is a sync request -/
def RuntimeEvent.waitsFor (event : RuntimeEvent) (node : PeerId) (channel : Option Channel) : Option (Option Channel) :=
  if event.ask.map Prod.fst = some node then some channel else none

namespace Host

/-- the commands on their way to the manager, oldest first -/
def queued (σ : Host) : List (NetworkCommand × Origin) :=
  σ.commands ++ σ.actions.filterMap fun a => a.1.networkCommand.map fun c => (c, a.2)

/-- the sync requests of `node` whose response is not yet handled, oldest first, by their channels -/
def inWork (σ : Host) (node : PeerId) : List (Option Channel) :=
  (σ.queued.filterMap fun c => c.2.event.waitsFor node c.2.channel) ++
    σ.events.filterMap fun e => e.1.waitsFor node e.2

end Host

/-- a sync request is accepted only when as many requests of its node are in work as channels wait; a response to a node
that is not registered is dropped only when no channel waits -/
def Matched (σ : Host) : HostMove → Prop
  | .swarm (.syncRequest peer _ _) =>
    match σ.manager.nodeByTransport.get? peer with
    | some node => (σ.inWork node).length = (σ.manager.queue node).length
    | none => True
  | .command =>
    match σ.commands with
    | (_, origin) :: _ =>
      match origin.event.ask with
      | some (node, _) => σ.manager.peerByNode.get? node = none → σ.manager.queue node = []
      | none => True
    | [] => True
  | _ => True

/-! ## The invariant -/

variable {ck : OverflowChecks}

/-- an event with a channel is the sync request that came in on it -/
def Arrived (received : List SyncRequest) (event : RuntimeEvent) (channel : Option Channel) : Prop :=
  ∀ ch, channel = some ch → ∃ node request, received[ch]? = some request ∧
    event = .frameReceived node (NetworkMessage.syncRequest request).toBytes

theorem Arrived.append {received : List SyncRequest} {event : RuntimeEvent} {channel : Option Channel}
    (h : Arrived received event channel) (more : List SyncRequest) : Arrived (received ++ more) event channel := by
  intro ch hch
  obtain ⟨node, request, hrequest, hevent⟩ := h ch hch
  have hlt := (List.getElem?_eq_some_iff.1 hrequest).1
  exact ⟨node, request, by rw [List.getElem?_append_left hlt, hrequest], hevent⟩

/-- what the engine made of the event: its response to a sync request, else nothing that answers -/
def Origin.Yields (o : Origin) (c : NetworkCommand) : Prop :=
  (∀ node request, o.event.ask = some (node, request) → ∃ r, o.engine.syncResponse request = .ok r ∧
    c = .sendFrame node (NetworkMessage.syncResponse r).toBytes) ∧ (o.event.ask = none → c.Unasked)

/-- the response was computed for the request that came in on its channel -/
def Sent.Answers (s : Sent) (received : List SyncRequest) : Prop :=
  s.origin.channel = some s.channel ∧ ∃ node request r, received[s.channel]? = some request ∧
    s.origin.event = .frameReceived node (NetworkMessage.syncRequest request).toBytes ∧
    s.origin.engine.syncResponse request = .ok r ∧
    NetworkMessage.fromBytes (NetworkMessage.syncResponse r).toBytes = .ok (.syncResponse s.response)

theorem Sent.Answers.append {s : Sent} {received : List SyncRequest} (h : s.Answers received) (more : List SyncRequest) :
    s.Answers (received ++ more) := by
  obtain ⟨hchannel, node, request, r, hrequest, hevent, hr, hbytes⟩ := h
  have hlt := (List.getElem?_eq_some_iff.1 hrequest).1
  exact ⟨hchannel, node, request, r, by rw [List.getElem?_append_left hlt, hrequest], hevent, hr, hbytes⟩

structure ReplyInv (σ : Host) : Prop where
  /-- the channels that wait are those of the oldest requests in work -/
  aligned : σ.running = true → ∀ node, ∃ stale, σ.inWork node = (σ.manager.queue node).map some ++ stale
  events : ∀ e ∈ σ.events, Arrived σ.received e.1 e.2
  queued : ∀ c ∈ σ.queued, c.2.Yields c.1 ∧ Arrived σ.received c.2.event c.2.channel
  sent : ∀ s ∈ σ.sent, s.Answers σ.received

theorem ask_syncRequest (node : PeerId) (request : SyncRequest) :
    (RuntimeEvent.frameReceived node (NetworkMessage.syncRequest request).toBytes).ask = some (node, request) := by
  have hframe := fromBytes_toBytes_message (m := .syncRequest request) trivial []
  rw [List.append_nil] at hframe
  simp only [RuntimeEvent.ask, hframe]

namespace RuntimeEvent

variable {event : RuntimeEvent} {node : PeerId} {request : SyncRequest}

theorem waitsFor_self (hask : event.ask = some (node, request)) (channel : Option Channel) :
    event.waitsFor node channel = some channel := by
  rw [waitsFor, hask, Option.map_some, if_pos rfl]

theorem waitsFor_other (hask : event.ask = some (node, request)) {n : PeerId} (hne : node ≠ n)
    (channel : Option Channel) : event.waitsFor n channel = none := by
  rw [waitsFor, hask, Option.map_some, if_neg fun heq => hne (Option.some.inj heq)]

theorem waitsFor_unasked (hask : event.ask = none) (n : PeerId) (channel : Option Channel) :
    event.waitsFor n channel = none := by
  rw [waitsFor, hask, Option.map_none, if_neg (Option.some_ne_none n).symm]

end RuntimeEvent

/-- events at the end of the channel are the youngest requests -/
theorem Host.inWork_append (σ : Host) (manager : NetworkManager) (events : List (RuntimeEvent × Option Channel))
    (received : List SyncRequest) (node : PeerId) :
    Host.inWork { σ with manager := manager, events := σ.events ++ events, received := received } node =
      σ.inWork node ++ events.filterMap fun e => e.1.waitsFor node e.2 := by
  rw [Host.inWork, Host.inWork, List.filterMap_append, List.append_assoc]
  rfl

namespace ReplyInv

variable {σ σ' : Host}

/-- a request is accepted: as many requests are in work as channels wait, so none of them is stale -/
theorem aligned_accept (hI : ReplyInv σ) (hrunning : σ.running = true) {manager : NetworkManager} {node : PeerId}
    {request : SyncRequest} {channel : Channel} (received : List SyncRequest)
    (hlen : (σ.inWork node).length = (σ.manager.queue node).length)
    (hqueue : ∀ n, manager.queue n = if node = n then σ.manager.queue n ++ [channel] else σ.manager.queue n) (n : PeerId) :
    ∃ stale, Host.inWork { σ with
        manager := manager
        events := σ.events ++ [(.frameReceived node (NetworkMessage.syncRequest request).toBytes, some channel)]
        received := received } n = (manager.queue n).map some ++ stale := by
  obtain ⟨stale, hstale⟩ := hI.aligned hrunning n
  have hask := ask_syncRequest node request
  rw [hqueue n, Host.inWork_append]
  by_cases heq : node = n
  · subst heq
    have hnone : stale = [] := by
      rw [hstale, List.length_append, List.length_map] at hlen
      exact List.length_eq_zero_iff.1 (by omega)
    refine ⟨[], ?_⟩
    rw [if_pos rfl, hstale, hnone, List.filterMap_cons, RuntimeEvent.waitsFor_self hask]
    simp only [List.filterMap_nil, List.append_nil, List.map_append, List.map_cons, List.map_nil]
  · refine ⟨stale, ?_⟩
    rw [if_neg heq, hstale, List.filterMap_cons, RuntimeEvent.waitsFor_other hask heq, List.filterMap_nil, List.append_nil]

/-- whatever else comes in is behind the channels that wait -/
theorem aligned_behind (hI : ReplyInv σ) (hrunning : σ.running = true) {manager : NetworkManager}
    (events : List (RuntimeEvent × Option Channel)) (received : List SyncRequest)
    (hqueue : ∀ n, manager.queue n = σ.manager.queue n ∨ manager.queue n = []) (n : PeerId) :
    ∃ stale, Host.inWork { σ with manager := manager, events := σ.events ++ events, received := received } n =
      (manager.queue n).map some ++ stale := by
  obtain ⟨stale, hstale⟩ := hI.aligned hrunning n
  rw [Host.inWork_append]
  rcases hqueue n with hsame | hdropped
  · rw [hsame, hstale, List.append_assoc]
    exact ⟨_, rfl⟩
  · rw [hdropped]
    exact ⟨_, rfl⟩

theorem swarm (hI : ReplyInv σ) {event : SwarmEvent} (hcond : Matched σ (.swarm event))
    (h : σ.exec ck (.swarm event) = some σ') : ReplyInv σ' := by
  simp only [Host.exec] at h
  split_ifs at h with hpossible
  obtain ⟨hrunning, hfresh⟩ := hpossible
  cases h
  have hsent : ∀ s ∈ σ.sent, s.Answers (σ.received ++ event.request.toList) := fun s hs => (hI.sent s hs).append _
  have hqueued : ∀ c ∈ σ.queued, c.2.Yields c.1 ∧ Arrived (σ.received ++ event.request.toList) c.2.event c.2.channel :=
    fun c hc => ⟨(hI.queued c hc).1, (hI.queued c hc).2.append _⟩
  have hold : ∀ e ∈ σ.events, Arrived (σ.received ++ event.request.toList) e.1 e.2 :=
    fun e he => (hI.events e he).append _
  rcases σ.manager.handleSwarmEvent_queue event with
    ⟨peer, request, channel, node, rfl, hnode, hevents, hqueue⟩ | ⟨hqueue, hchannel⟩
  · have hchannel : channel = σ.received.length := by
      simpa only [SwarmEvent.channel, Option.all_some, beq_iff_eq] using hfresh
    have hlen : (σ.inWork node).length = (σ.manager.queue node).length := by
      simpa only [Matched, hnode] using hcond
    refine ⟨fun _ n => ?_, fun e he => ?_, hqueued, hsent⟩
    · dsimp only
      rw [hevents]
      exact hI.aligned_accept hrunning _ hlen hqueue n
    · rcases List.mem_append.1 he with hmem | hmem
      · exact hold e hmem
      · rw [hevents, List.map_singleton, List.mem_singleton] at hmem
        subst hmem
        intro ch hch
        cases hch
        refine ⟨node, request, ?_, rfl⟩
        rw [hchannel]
        exact List.getElem?_concat_length
  · refine ⟨fun _ n => hI.aligned_behind hrunning _ _ hqueue n, fun e he => ?_, hqueued, hsent⟩
    rcases List.mem_append.1 he with hmem | hmem
    · exact hold e hmem
    · obtain ⟨x, hx, rfl⟩ := List.mem_map.1 hmem
      rcases hchannel with hnil | hnone
      · rw [hnil] at hx
        cases hx
      · intro ch hch
        rw [hnone] at hch
        cases hch

theorem arrive (hI : ReplyInv σ) {event : RuntimeEvent} (h : σ.exec ck (.arrive event) = some σ') : ReplyInv σ' := by
  simp only [Host.exec] at h
  split_ifs at h with hother
  cases h
  refine ⟨fun hrunning n => hI.aligned_behind hrunning _ _ (fun _ => .inl rfl) n, fun e he => ?_, hI.queued, hI.sent⟩
  rcases List.mem_append.1 he with hmem | hmem
  · exact hI.events e hmem
  · rw [List.mem_singleton] at hmem
    subst hmem
    intro ch hch
    cases hch

/-- the commands of a step carry its event and channel -/
theorem queued_acts (acts : List NodeAction) (origin : Origin) :
    ((acts.map fun a => (a, origin)).filterMap fun a => a.1.networkCommand.map fun c => (c, a.2)) =
      (acts.filterMap NodeAction.networkCommand).map fun c => (c, origin) := by
  rw [List.filterMap_map, List.map_filterMap]
  rfl

theorem process (hI : ReplyInv σ) (h : σ.exec ck .process = some σ') : ReplyInv σ' := by
  simp only [Host.exec] at h
  split at h
  · rename_i event channel rest hidle hnext
    split at h
    · rename_i e' acts hrun
      cases h
      obtain ⟨hask, hunasked⟩ := RuntimeEvent.run_commands hrun
      have harrived : Arrived σ.received event channel := hI.events (event, channel) (hnext ▸ List.mem_cons_self)
      have hqueued : Host.queued { σ with
            engine := e', events := rest, actions := acts.map fun a => (a, ⟨σ.engine, event, channel⟩) } =
          σ.commands ++ (acts.filterMap NodeAction.networkCommand).map fun c => (c, ⟨σ.engine, event, channel⟩) := by
        rw [Host.queued, queued_acts]
      have hbefore : σ.queued = σ.commands := by
        rw [Host.queued, hidle, List.filterMap_nil, List.append_nil]
      refine ⟨fun hrunning n => ?_, fun e he => ?_, fun c hc => ?_, hI.sent⟩
      · obtain ⟨stale, hstale⟩ := hI.aligned hrunning n
        refine ⟨stale, ?_⟩
        rw [← hstale, Host.inWork, Host.inWork, hqueued, hbefore, hnext, List.filterMap_append, List.append_assoc]
        congr 1
        -- the event in front of the channel is now the command behind the others
        have hmoved : (((acts.filterMap NodeAction.networkCommand).map fun c =>
              (c, (⟨σ.engine, event, channel⟩ : Origin))).filterMap fun c => c.2.event.waitsFor n c.2.channel) =
            (event.waitsFor n channel).toList := by
          rw [List.filterMap_map]
          cases hevent : event.ask with
          | none =>
            rw [RuntimeEvent.waitsFor_unasked hevent]
            exact List.filterMap_eq_nil_iff.2 fun c _ => RuntimeEvent.waitsFor_unasked hevent n channel
          | some asked =>
            obtain ⟨node, request⟩ := asked
            obtain ⟨r, -, hone⟩ := hask node request hevent
            rw [hone, List.filterMap_cons, Function.comp_apply]
            cases event.waitsFor n channel with
            | none => rfl
            | some tag => rfl
        rw [hmoved]
        cases hwaits : event.waitsFor n channel with
        | none => simp only [Option.toList_none, List.nil_append, List.filterMap_cons, hwaits]
        | some tag => simp only [Option.toList_some, List.cons_append, List.nil_append, List.filterMap_cons, hwaits]
      · exact hI.events e (hnext ▸ List.mem_cons_of_mem _ he)
      · rw [hqueued] at hc
        rcases List.mem_append.1 hc with hmem | hmem
        · exact hI.queued c (hbefore ▸ hmem)
        · obtain ⟨command, hcommand, rfl⟩ := List.mem_map.1 hmem
          refine ⟨⟨fun node request hevent => ?_, fun hnone => ?_⟩, harrived⟩
          · obtain ⟨r, hr, hone⟩ := hask node request hevent
            rw [hone, List.mem_singleton] at hcommand
            exact ⟨r, hr, hcommand⟩
          · obtain ⟨a, ha, hac⟩ := List.mem_filterMap.1 hcommand
            exact hunasked hnone a ha command hac
    · cases h
  · cases h

theorem perform (hI : ReplyInv σ) (h : σ.exec ck .perform = some σ') : ReplyInv σ' := by
  simp only [Host.exec] at h
  split at h
  · rename_i action origin rest hnext
    cases h
    have hqueued : Host.queued { σ with
          actions := rest, commands := σ.commands ++ (action.networkCommand.map fun c => (c, origin)).toList } =
        σ.queued := by
      simp only [Host.queued, hnext, List.append_assoc, List.filterMap_cons]
      congr 1
      cases action.networkCommand with
      | none => rfl
      | some c => rfl
    refine ⟨fun hrunning n => ?_, hI.events, fun c hc => hI.queued c (hqueued ▸ hc), hI.sent⟩
    rw [Host.inWork, hqueued]
    exact hI.aligned hrunning n
  · cases h

/-- the command in front is the oldest in work -/
theorem inWork_command {command : NetworkCommand} {origin : Origin} {rest : List (NetworkCommand × Origin)}
    (hnext : σ.commands = (command, origin) :: rest) (manager : NetworkManager) (sent : List Sent) (node : PeerId) :
    σ.inWork node = (origin.event.waitsFor node origin.channel).toList ++
      Host.inWork { σ with manager := manager, commands := rest, sent := sent } node := by
  simp only [Host.inWork, Host.queued, hnext, List.cons_append, List.filterMap_cons]
  cases origin.event.waitsFor node origin.channel with
  | none => rfl
  | some tag => rfl

/-- a command that answers nothing -/
theorem command_unasked (hI : ReplyInv σ) {command : NetworkCommand} {origin : Origin}
    {rest : List (NetworkCommand × Origin)} {manager : NetworkManager} {calls : List SwarmCall} (hrunning : σ.running = true)
    (hnext : σ.commands = (command, origin) :: rest) (hask : origin.event.ask = none)
    (h : σ.manager.handleCommand command = .ok (manager, calls)) :
    ReplyInv { σ with
      manager := manager, commands := rest, sent := σ.sent ++ calls.filterMap (SwarmCall.sent origin) } := by
  have hmem : (command, origin) ∈ σ.queued := List.mem_append_left _ (hnext ▸ List.mem_cons_self)
  obtain ⟨hqueue, hcalls⟩ := NetworkManager.handleCommand_unasked ((hI.queued _ hmem).1.2 hask) h
  have hsilent : calls.filterMap (SwarmCall.sent origin) = [] := by
    refine List.filterMap_eq_nil_iff.2 fun call hcall => ?_
    cases call with
    | syncResponse channel response => exact absurd hcall (hcalls channel response)
    | _ => rfl
  rw [hsilent, List.append_nil]
  refine ⟨fun _ n => ?_, hI.events, fun c hc => hI.queued c ?_, hI.sent⟩
  · obtain ⟨stale, hstale⟩ := hI.aligned hrunning n
    refine ⟨stale, ?_⟩
    rw [inWork_command hnext manager σ.sent n, RuntimeEvent.waitsFor_unasked hask] at hstale
    rw [hqueue n]
    exact hstale
  · simp only [Host.queued, hnext]
    exact List.mem_cons_of_mem _ hc

/-- a response: the channel it takes is that of its request -/
theorem command_response (hI : ReplyInv σ) {command : NetworkCommand} {origin : Origin}
    {rest : List (NetworkCommand × Origin)} {manager : NetworkManager} {calls : List SwarmCall} {node : PeerId}
    {request : SyncRequest} (hrunning : σ.running = true) (hnext : σ.commands = (command, origin) :: rest)
    (hask : origin.event.ask = some (node, request))
    (hcond : σ.manager.peerByNode.get? node = none → σ.manager.queue node = [])
    (h : σ.manager.handleCommand command = .ok (manager, calls)) :
    ReplyInv { σ with
      manager := manager, commands := rest, sent := σ.sent ++ calls.filterMap (SwarmCall.sent origin) } := by
  have hmem : (command, origin) ∈ σ.queued := List.mem_append_left _ (hnext ▸ List.mem_cons_self)
  obtain ⟨hyields, harrived⟩ := hI.queued _ hmem
  obtain ⟨r, hr, rfl⟩ := hyields.1 node request hask
  have hqueued : ∀ c ∈ Host.queued { σ with
        manager := manager, commands := rest, sent := σ.sent ++ calls.filterMap (SwarmCall.sent origin) },
      c.2.Yields c.1 ∧ Arrived σ.received c.2.event c.2.channel := by
    intro c hc
    refine hI.queued c ?_
    simp only [Host.queued, hnext]
    exact List.mem_cons_of_mem _ hc
  have hwork := fun n => inWork_command hnext manager (σ.sent ++ calls.filterMap (SwarmCall.sent origin)) n
  -- the other nodes keep their work and their channels
  have hrest : ∀ n, node ≠ n → manager.queue n = σ.manager.queue n → ∃ stale, Host.inWork { σ with
        manager := manager, commands := rest, sent := σ.sent ++ calls.filterMap (SwarmCall.sent origin) } n =
      (manager.queue n).map some ++ stale := by
    intro n hne hsame
    obtain ⟨stale, hstale⟩ := hI.aligned hrunning n
    rw [hwork n, RuntimeEvent.waitsFor_other hask hne] at hstale
    exact ⟨stale, by rw [hsame]; exact hstale⟩
  rcases NetworkManager.handleCommand_response h with
    ⟨hdrop, rfl, rfl⟩ | ⟨channel, waiting, response, hqueue, hbytes, rfl, hafter⟩
  · -- dropped, with no channel waiting
    have hnil : σ.manager.queue node = [] := by
      rcases hdrop with hunknown | hnil
      · exact hcond hunknown
      · exact hnil
    refine ⟨fun _ n => ?_, hI.events, hqueued, ?_⟩
    · by_cases hn : node = n
      · subst hn
        dsimp only
        rw [hnil]
        exact ⟨_, rfl⟩
      · exact hrest n hn rfl
    · rw [List.filterMap_nil, List.append_nil]
      exact hI.sent
  · obtain ⟨stale, hstale⟩ := hI.aligned hrunning node
    rw [hwork node, RuntimeEvent.waitsFor_self hask, hqueue, Option.toList_some, List.map_cons, List.cons_append, List.cons_append,
      List.nil_append] at hstale
    obtain ⟨hchannel, htail⟩ := List.cons.inj hstale
    refine ⟨fun _ n => ?_, hI.events, hqueued, ?_⟩
    · by_cases hn : node = n
      · subst hn
        dsimp only
        rw [hafter node, if_pos rfl]
        exact ⟨stale, htail⟩
      · exact hrest n hn (by rw [hafter n, if_neg hn])
    · intro s hs
      rcases List.mem_append.1 hs with hold | hnew
      · exact hI.sent s hold
      · have heq : s = ⟨channel, response, origin⟩ := by
          simpa only [List.filterMap_cons, SwarmCall.sent, List.filterMap_nil, List.mem_singleton] using hnew
        subst heq
        obtain ⟨node', request', hreceived, hevent⟩ := harrived channel hchannel
        rw [hevent, ask_syncRequest] at hask
        cases hask
        exact ⟨hchannel, node, request, r, hreceived, hevent, hr, hbytes⟩

theorem command (hI : ReplyInv σ) (hcond : Matched σ .command) (h : σ.exec ck .command = some σ') : ReplyInv σ' := by
  simp only [Host.exec] at h
  split at h
  · rename_i command origin rest hrunning hnext
    split at h
    · rename_i manager calls hcommand
      cases h
      simp only [Matched, hnext] at hcond
      cases hask : origin.event.ask with
      | none => exact hI.command_unasked hrunning hnext hask hcommand
      | some asked =>
        obtain ⟨node, request⟩ := asked
        rw [hask] at hcond
        exact hI.command_response hrunning hnext hask hcond hcommand
    · cases h
      exact ⟨fun hstopped => (by cases hstopped), hI.events, hI.queued, hI.sent⟩
  · cases h

theorem step (hI : ReplyInv σ) {move : HostMove} (hcond : Matched σ move) (h : σ.exec ck move = some σ') :
    ReplyInv σ' := by
  cases move with
  | swarm event => exact hI.swarm hcond h
  | arrive event => exact hI.arrive h
  | process => exact hI.process h
  | perform => exact hI.perform h
  | command => exact hI.command hcond h

end ReplyInv

theorem replyInv_start (blockchain : Blockchain) : ReplyInv (.start blockchain) :=
  ⟨fun _ _ => ⟨[], rfl⟩, fun _ he => (nomatch he), fun _ hc => (nomatch hc), fun _ hs => nomatch hs⟩

theorem replyInv_of_reached {σ : Host} (h : (Host.machine ck).Reached Matched σ) : ReplyInv σ := by
  refine h.invariant ?_ fun σ move σ' hI hcond hexec => hI.step hcond hexec
  rintro _ ⟨blockchain, rfl⟩
  exact replyInv_start blockchain

/-- **Sync responses answer their request.** In every run in which a sync request is accepted only when as many requests
of its node are in work as channels wait, and a response to a node that is not registered is dropped only when no channel
waits: every response that went out on a channel was computed by the engine for the request that came in on that
channel. -/
theorem sync_responses_answer_their_request {σ : Host} (h : (Host.machine ck).Reached Matched σ) :
    ∀ s ∈ σ.sent, s.origin.channel = some s.channel ∧ ∃ node request r, σ.received[s.channel]? = some request ∧
      s.origin.event = .frameReceived node (NetworkMessage.syncRequest request).toBytes ∧
      s.origin.engine.syncResponse request = .ok r ∧
      NetworkMessage.fromBytes (NetworkMessage.syncResponse r).toBytes = .ok (.syncResponse s.response) :=
  (replyInv_of_reached h).sent

instance (σ : Host) (move : HostMove) : Decidable (Matched σ move) := by
  unfold Matched
  split
  · split <;> infer_instance
  · split
    · split <;> infer_instance
    · infer_instance
  · infer_instance

end Replies

section Witness

open Sample

/-! ### A peer connects and asks for the first blocks -/

def firstBlocks : List HostMove :=
  [.swarm (.nodeHello [1] ⟨peer, 64⟩), .process, .perform, .perform, .perform, .command,
    .swarm (.syncRequest [1] ⟨0, 5⟩ 0), .process, .perform, .command]

def served : Host := ((Host.machine .release).replay Matched firstBlocks (.start .new)).get (by decide +kernel)

theorem served_reached : (Host.machine .release).Reached Matched served :=
  Machine.Reached.of_replay (.start ⟨.new, rfl⟩) (Option.some_get _).symm

/-- one response went out, on the channel of the request and computed for it -/
theorem sync_responses_answer_their_request_of_served :
    served.sent.map Sent.channel = [0] ∧ served.received = [⟨0, 5⟩] ∧
      ∀ s ∈ served.sent, s.origin.channel = some s.channel :=
  ⟨by decide +kernel, by decide +kernel, fun s hs => (sync_responses_answer_their_request served_reached s hs).1⟩

/-! ### A peer gossips a sync request for block 0, then asks for block 5 -/

def gossiped : List HostMove :=
  [.swarm (.nodeHello [1] ⟨peer, 64⟩), .process, .perform, .perform, .perform, .command,
    .swarm (.gossipsubMessage [1] (NetworkMessage.syncRequest ⟨0, 0⟩).toBytes), .swarm (.syncRequest [1] ⟨5, 5⟩ 0),
    .process, .perform, .command]

def mixedUp : Host :=
  ((Host.machine .release).replay (fun _ _ => True) gossiped (.start .new)).get (by decide +kernel)

theorem mixedUp_reached : (Host.machine .release).Reached (fun _ _ => True) mixedUp :=
  Machine.Reached.of_replay (.start ⟨.new, rfl⟩) (Option.some_get _).symm

/-- block 0 goes out on the channel of the request for block 5, to which the engine has no block -/
theorem gossip_takes_the_channel :
    ∃ σ : Host, (Host.machine .release).Reached (fun _ _ => True) σ ∧ ∃ s ∈ σ.sent, s.origin.channel ≠ some s.channel ∧
      ∃ request r, σ.received[s.channel]? = some request ∧ s.origin.engine.syncResponse request = .ok r ∧
        s.response.blocks.length = 1 ∧ r.blocks.length = 0 := by
  have hsent : mixedUp.sent.map (fun s => (s.channel, s.origin.channel, s.response.blocks.length,
      (s.origin.engine.syncResponse ⟨5, 5⟩).toOption.map fun r => r.blocks.length)) = [(0, none, 1, some 0)] := by
    decide +kernel
  obtain ⟨s, hs, hvalues⟩ := List.map_eq_singleton_iff.1 hsent
  obtain ⟨hchannel, horigin, hblocks, hanswer⟩ := Prod.mk.inj hvalues |>.imp_right fun h =>
    (Prod.mk.inj h).imp_right Prod.mk.inj
  obtain ⟨r, hr, hnone⟩ := Option.map_eq_some_iff.1 hanswer
  refine ⟨mixedUp, mixedUp_reached, s, hs ▸ List.mem_singleton_self _, ?_, ⟨5, 5⟩, r, ?_, ?_, hblocks, hnone⟩
  · rw [horigin]
    exact fun h => nomatch h
  · rw [hchannel]
    decide +kernel
  · cases hres : s.origin.engine.syncResponse ⟨5, 5⟩ with
    | error f => rw [hres] at hr; cases hr
    | ok r' => rw [hres] at hr; cases hr; rfl

end Witness

end RustProof
