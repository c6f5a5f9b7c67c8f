/-
The engine and its clock (`run_wake_loop` of rp-runtime, `WakeManager` of erp-runtime, `NodeManager::run` of both).

Three parties run side by side. The node manager takes an event, lets the engine step, and sends the actions of the step
one by one before it takes the next event; wake actions go to the wake loop through a FIFO channel. The wake loop is armed
at a time or not at all: a command sets it, and when the time has come it disarms itself and sends a tick with the clock's
time. Other events come from outside. The clock never goes back. The channels are unbounded here: a sender that waits for
room adds no behaviour. The two runtimes differ in one point: erp-runtime fires only when no command is waiting (`biased`).

`births` is not part of the program: it records for every open request the time at which it was queued.

Results:
- `no_lost_wake_up`: whatever the interleaving, the wake-up the engine believes to be scheduled is its earliest deadline,
  and the loop will be armed there once it has read its commands, or a tick that is late enough is already under way;
- `requests_not_expired_early`: a tick removes a request only after its timeout, in runs in which the engine's time is the
  clock's whenever a request is queued. It is the time of the last tick, and there are no ticks while nothing is open
  (`request_expired_at_once`).
-/
import RustProof.Lib.Machine
import RustProof.Node.Requests
import RustProof.Node.Sample

namespace RustProof

section Wake

variable [Crypto]

/-! ## The parties -/

/-- `RuntimeEvent` -/
inductive RuntimeEvent where
  | tick (nowMs : UInt64)
  | peerConnected (peer : PeerId)
  | peerDisconnected (peer : PeerId)
  | frameReceived (peer : PeerId) (frame : Frame)
  | storageLoaded (blockHash : Hash) (stateBytes : Option (List UInt8))
  | latestSnapshotLoaded (block : Option Block) (stateBytes : Option (List UInt8))

/-- the input of the engine that an event is passed on as -/
def RuntimeEvent.input : RuntimeEvent → Option NodeInput
  | .tick nowMs => some (.tick nowMs)
  | .peerConnected peer => some (.peerConnected peer)
  | .peerDisconnected peer => some (.peerDisconnected peer)
  | .frameReceived peer frame => some (.frameReceived peer frame)
  | .storageLoaded blockHash stateBytes => some (.storageLoaded blockHash stateBytes)
  | .latestSnapshotLoaded _ _ => none

/-- the `match event` of `NodeManager::run` -/
def RuntimeEvent.run (ck : OverflowChecks) (e : NodeEngine) : RuntimeEvent → Except Fault (NodeEngine × List NodeAction)
  | .latestSnapshotLoaded block stateBytes => e.restoreLatestSnapshot block stateBytes
  | .tick nowMs => e.step ck (.tick nowMs)
  | .peerConnected peer => e.step ck (.peerConnected peer)
  | .peerDisconnected peer => e.step ck (.peerDisconnected peer)
  | .frameReceived peer frame => e.step ck (.frameReceived peer frame)
  | .storageLoaded blockHash stateBytes => e.step ck (.storageLoaded blockHash stateBytes)

/-- what a command makes of `next_tick_at_ms` -/
def WakeCommand.apply : Option UInt64 → WakeCommand → Option UInt64
  | _, .schedule atMs => some atMs
  | _, .cancel => none

/-- `STARTUP_HEARTBEAT_DELAY_MS` -/
def startupHeartbeatDelayMs : UInt64 := 1000

structure Node where
  engine : NodeEngine
  /-- the event channel -/
  events : List RuntimeEvent
  /-- the actions of the last step that the node manager has still to handle -/
  actions : List NodeAction
  /-- the wake channel -/
  commands : List WakeCommand
  nextTickAtMs : Option UInt64
  clock : UInt64
  /-- for every open request, in order, when it was queued -/
  births : List (PendingRequest × UInt64)

namespace Node

def start (blockchain : Blockchain) (now : UInt64) : Node :=
  { engine := .new blockchain
    events := []
    actions := []
    commands := []
    nextTickAtMs := some (saturatingAdd now startupHeartbeatDelayMs)
    clock := now
    births := [] }

/-- the records of the requests that are kept, then those of the requests behind them -/
def birthsAfter (σ : Node) (event : RuntimeEvent) (e' : NodeEngine) : List (PendingRequest × UInt64) :=
  let kept := σ.births.filter fun b => event.input.all fun input => input.keeps b.1
  kept ++ (e'.pendingRequests.drop kept.length).map fun r => (r, σ.clock)

/-- `C` is a condition on the events that are processed -/
inductive Step (ck : OverflowChecks) (biased : Bool) (C : Node → RuntimeEvent → Prop) : Node → Node → Prop
  | advance {σ : Node} {now : UInt64} (later : σ.clock ≤ now) : Step ck biased C σ { σ with clock := now }
  /-- from the network or from storage -/
  | arrive {σ : Node} {event : RuntimeEvent} (other : ∀ t, event ≠ .tick t) :
      Step ck biased C σ { σ with events := σ.events ++ [event] }
  | process {σ : Node} {event : RuntimeEvent} {rest : List RuntimeEvent} {e' : NodeEngine} {acts : List NodeAction}
      (idle : σ.actions = []) (next : σ.events = event :: rest) (cond : C σ event)
      (run : event.run ck σ.engine = .ok (e', acts)) :
      Step ck biased C σ
        { σ with engine := e', events := rest, actions := acts, births := σ.birthsAfter event e' }
  /-- `handle_action` -/
  | perform {σ : Node} {action : NodeAction} {rest : List NodeAction} (next : σ.actions = action :: rest) :
      Step ck biased C σ { σ with actions := rest, commands := σ.commands ++ action.wakeCommand.toList }
  | deliver {σ : Node} {command : WakeCommand} {rest : List WakeCommand} (next : σ.commands = command :: rest) :
      Step ck biased C σ { σ with commands := rest, nextTickAtMs := command.apply σ.nextTickAtMs }
  | fire {σ : Node} {deadline : UInt64} (armed : σ.nextTickAtMs = some deadline) (due : deadline ≤ σ.clock)
      (select : biased = true → σ.commands = []) :
      Step ck biased C σ { σ with nextTickAtMs := none, events := σ.events ++ [.tick σ.clock] }

inductive Reached (ck : OverflowChecks) (biased : Bool) (C : Node → RuntimeEvent → Prop) : Node → Prop
  | start (blockchain : Blockchain) (now : UInt64) : Reached ck biased C (.start blockchain now)
  | step {σ σ' : Node} (reached : Reached ck biased C σ) (step : Step ck biased C σ σ') : Reached ck biased C σ'

/-- the commands on their way to the wake loop, oldest first -/
def queued (σ : Node) : List WakeCommand := σ.commands ++ σ.actions.filterMap NodeAction.wakeCommand

/-- where the wake loop is armed once it has read all commands -/
def drained (σ : Node) : Option UInt64 := σ.queued.foldl WakeCommand.apply σ.nextTickAtMs

end Node

/-! ## An event, as the engine sees it -/

variable {ck : OverflowChecks} {biased : Bool} {C : Node → RuntimeEvent → Prop}

/-- a snapshot changes the ledger only; all other events are inputs -/
theorem RuntimeEvent.run_cases {e e' : NodeEngine} {event : RuntimeEvent} {acts : List NodeAction}
    (h : event.run ck e = .ok (e', acts)) :
    (∃ input, event.input = some input ∧ NodeEngine.Stepped e input e' acts) ∨
      event.input = none ∧ NodeEngine.SameTimer e e' acts := by
  cases event with
  | latestSnapshotLoaded block stateBytes =>
    refine .inr ⟨rfl, ?_⟩
    have hreport : ∀ (bc : Blockchain) (m : String),
        NodeEngine.SameTimer e { e with blockchain := bc } [.reportEvent m] := by
      intro bc m
      exact ⟨rfl, rfl, rfl, fun a ha => by rw [List.mem_singleton.1 ha]; rfl⟩
    simp only [run, NodeEngine.restoreLatestSnapshot] at h
    split at h
    · split at h
      · cases h
      · cases h
        exact hreport _ _
      · split_ifs at h <;> cases h <;> exact hreport _ _
    · cases h
      exact hreport _ _
  | tick nowMs => exact .inl ⟨_, rfl, NodeEngine.step_requests_spec h⟩
  | peerConnected peer => exact .inl ⟨_, rfl, NodeEngine.step_requests_spec h⟩
  | peerDisconnected peer => exact .inl ⟨_, rfl, NodeEngine.step_requests_spec h⟩
  | frameReceived peer frame => exact .inl ⟨_, rfl, NodeEngine.step_requests_spec h⟩
  | storageLoaded blockHash stateBytes => exact .inl ⟨_, rfl, NodeEngine.step_requests_spec h⟩

/-! ## No lost wake-up -/

structure WakeInv (σ : Node) : Prop where
  scheduled : σ.engine.scheduledWakeAtMs = σ.engine.nextWakeAtMs
  armed : ∀ m, σ.engine.nextWakeAtMs = some m → σ.drained = some m ∨ ∃ now, .tick now ∈ σ.events ∧ m ≤ now

omit [Crypto] in
/-- the last command is where the loop is armed -/
theorem foldl_wakeCommands {armed scheduled next : Option UInt64} (commands : List WakeCommand) (h : next ≠ scheduled) :
    (commands ++ NodeEngine.wakeCommands scheduled next).foldl WakeCommand.apply armed = next := by
  unfold NodeEngine.wakeCommands
  rw [if_neg h, List.foldl_append]
  cases next with
  | none => rfl
  | some m => rfl

/-- a tick leaves no deadline at or before its time -/
theorem lt_nextWake_of_tick {e e' : NodeEngine} {now m : UInt64} {acts : List NodeAction}
    (h : NodeEngine.Stepped e (.tick now) e' acts) (hm : e'.nextWakeAtMs = some m) : now < m := by
  obtain ⟨added, hrequests, -, hnone⟩ := h.requests
  rw [hnone rfl, List.append_nil] at hrequests
  obtain ⟨r, hr, rfl⟩ := List.mem_map.1 (List.min?_mem hm)
  rw [hrequests] at hr
  exact of_decide_eq_true (List.mem_filter.1 hr).2

theorem WakeInv.process {σ : Node} {event : RuntimeEvent} {rest : List RuntimeEvent} {e' : NodeEngine}
    {acts : List NodeAction} (hI : WakeInv σ) (hidle : σ.actions = []) (hnext : σ.events = event :: rest)
    (hrun : event.run ck σ.engine = .ok (e', acts)) :
    WakeInv { σ with engine := e', events := rest, actions := acts, births := σ.birthsAfter event e' } := by
  rcases RuntimeEvent.run_cases hrun with ⟨input, hinput, hstepped⟩ | ⟨hinput, hsame⟩
  · refine ⟨hstepped.scheduled, fun m hm => ?_⟩
    simp only [Node.drained, Node.queued, hstepped.commands] at hm ⊢
    by_cases hchange : e'.nextWakeAtMs = σ.engine.scheduledWakeAtMs
    · -- nothing is sent: the old wake-up or tick still stands
      have hcommands : NodeEngine.wakeCommands σ.engine.scheduledWakeAtMs e'.nextWakeAtMs = [] := by
        unfold NodeEngine.wakeCommands
        rw [if_pos hchange]
      have hold : σ.engine.nextWakeAtMs = some m := by rw [← hI.scheduled, ← hchange, hm]
      rw [hcommands, List.append_nil]
      rcases hI.armed m hold with hdrained | ⟨now, hnow, hle⟩
      · left
        simpa only [Node.drained, Node.queued, hidle, List.filterMap_nil, List.append_nil] using hdrained
      · right
        rw [hnext] at hnow
        rcases List.mem_cons.1 hnow with rfl | hrest
        · cases hinput
          exact absurd (lt_nextWake_of_tick hstepped hm) (not_lt.2 hle)
        · exact ⟨now, hrest, hle⟩
    · left
      rw [foldl_wakeCommands _ hchange, hm]
  · have hwake : e'.nextWakeAtMs = σ.engine.nextWakeAtMs := by
      unfold NodeEngine.nextWakeAtMs
      rw [hsame.requests]
    refine ⟨by rw [hwake, hsame.scheduled, hI.scheduled], fun m hm => ?_⟩
    have hnone : acts.filterMap NodeAction.wakeCommand = [] := List.filterMap_eq_nil_iff.2 hsame.noWake
    rw [hwake] at hm
    rcases hI.armed m hm with hdrained | ⟨now, hnow, hle⟩
    · left
      simpa only [Node.drained, Node.queued, hidle, hnone, List.filterMap_nil, List.append_nil] using hdrained
    · right
      rw [hnext] at hnow
      rcases List.mem_cons.1 hnow with rfl | hrest
      · cases hinput
      · exact ⟨now, hrest, hle⟩

/-- a firing either is overridden by a command on its way, or was at the earliest deadline -/
theorem WakeInv.fire {σ : Node} {deadline : UInt64} (hI : WakeInv σ) (harmed : σ.nextTickAtMs = some deadline)
    (hdue : deadline ≤ σ.clock) :
    WakeInv { σ with nextTickAtMs := none, events := σ.events ++ [.tick σ.clock] } := by
  refine ⟨hI.scheduled, fun m hm => ?_⟩
  rcases hI.armed m hm with hdrained | ⟨now, hnow, hle⟩
  · rw [Node.drained] at hdrained
    cases hqueued : σ.queued with
    | nil =>
      rw [hqueued, List.foldl_nil, harmed] at hdrained
      cases hdrained
      exact .inr ⟨σ.clock, List.mem_append_right _ (List.mem_singleton_self _), hdue⟩
    | cons c cs =>
      left
      rw [hqueued, List.foldl_cons] at hdrained
      have hq : Node.queued { σ with nextTickAtMs := none, events := σ.events ++ [.tick σ.clock] } = c :: cs := hqueued
      rw [Node.drained, hq, List.foldl_cons, ← hdrained]
      cases c with
      | schedule atMs => rfl
      | cancel => rfl
  · exact .inr ⟨now, List.mem_append_left _ hnow, hle⟩

theorem WakeInv.step {σ σ' : Node} (hI : WakeInv σ) (h : Node.Step ck biased C σ σ') : WakeInv σ' := by
  cases h with
  | advance _ => exact ⟨hI.scheduled, hI.armed⟩
  | arrive _ =>
    refine ⟨hI.scheduled, fun m hm => ?_⟩
    rcases hI.armed m hm with hdrained | ⟨now, hnow, hle⟩
    · exact .inl hdrained
    · exact .inr ⟨now, List.mem_append_left _ hnow, hle⟩
  | process hidle hnext _ hrun => exact hI.process hidle hnext hrun
  | @perform action rest hnext =>
    refine ⟨hI.scheduled, fun m hm => ?_⟩
    have hqueued : Node.queued { σ with actions := rest, commands := σ.commands ++ action.wakeCommand.toList } =
        σ.queued := by
      simp only [Node.queued, hnext, List.append_assoc]
      congr 1
      rw [List.filterMap_cons]
      cases action.wakeCommand with
      | none => rfl
      | some c => rfl
    rw [Node.drained, hqueued]
    exact hI.armed m hm
  | @deliver command rest hnext =>
    refine ⟨hI.scheduled, fun m hm => ?_⟩
    have hdrained : Node.drained { σ with commands := rest, nextTickAtMs := command.apply σ.nextTickAtMs } =
        σ.drained := by
      simp only [Node.drained, Node.queued, hnext, List.cons_append, List.foldl_cons]
    rw [hdrained]
    exact hI.armed m hm
  | fire harmed hdue _ => exact hI.fire harmed hdue

theorem Node.Reached.wakeInv {σ : Node} (h : Node.Reached ck biased C σ) : WakeInv σ := by
  induction h with
  | start blockchain now => exact ⟨rfl, fun m hm => nomatch hm⟩
  | step _ hstep ih => exact ih.step hstep

/-- **No lost wake-up.** In every reachable state, for both wake loops and every interleaving of engine steps, actions,
command deliveries, firings and arrivals: the engine's `scheduled_wake_at_ms` is the earliest deadline of its open
requests; and if there is one, the wake loop will be armed exactly there once it has read the commands on their way to
it, or a tick at or after that deadline is waiting in the event channel. -/
theorem no_lost_wake_up {σ : Node} (h : Node.Reached ck biased (fun _ _ => True) σ) :
    σ.engine.scheduledWakeAtMs = (σ.engine.pendingRequests.map PendingRequest.deadlineMs).min? ∧
      ∀ m, (σ.engine.pendingRequests.map PendingRequest.deadlineMs).min? = some m →
        σ.drained = some m ∨ ∃ now, .tick now ∈ σ.events ∧ m ≤ now :=
  ⟨h.wakeInv.scheduled, h.wakeInv.armed⟩

/-! ## Requests are not expired early -/

/-- an event that makes the engine ask for blocks finds the engine's time at the clock's, and a timeout still fits -/
def Timely (σ : Node) (event : RuntimeEvent) : Prop :=
  ∀ input, event.input = some input → σ.engine.queues input = true →
    σ.engine.currentTimeMs = σ.clock ∧ σ.clock.toNat + requestTimeoutMs.toNat < 2 ^ 64

structure BirthInv (σ : Node) : Prop where
  /-- the records are those of the open requests -/
  requests : σ.births.map Prod.fst = σ.engine.pendingRequests
  deadlines : ∀ b ∈ σ.births, b.1.deadlineMs.toNat = b.2.toNat + requestTimeoutMs.toNat

/-- what the records are after an event -/
theorem birthsAfter_spec {σ : Node} {event : RuntimeEvent} {e' : NodeEngine} {acts : List NodeAction}
    (hrecords : σ.births.map Prod.fst = σ.engine.pendingRequests) (hrun : event.run ck σ.engine = .ok (e', acts)) :
    ∃ kept added, e'.pendingRequests = kept.map Prod.fst ++ added ∧
      σ.birthsAfter event e' = kept ++ (added.map fun r => (r, σ.clock)) ∧ (∀ b ∈ kept, b ∈ σ.births) ∧
      (∀ r ∈ added, r.deadlineMs = saturatingAdd σ.engine.currentTimeMs requestTimeoutMs) ∧
      (added ≠ [] → ∃ input, event.input = some input ∧ σ.engine.queues input = true) := by
  obtain ⟨kept, hkept⟩ : ∃ kept, kept = σ.births.filter fun b => event.input.all fun input => input.keeps b.1 := ⟨_, rfl⟩
  have hbirths : ∀ added, e'.pendingRequests = kept.map Prod.fst ++ added →
      σ.birthsAfter event e' = kept ++ (added.map fun r => (r, σ.clock)) := by
    intro added hadded
    simp only [Node.birthsAfter, ← hkept]
    rw [hadded, List.drop_left' (List.length_map _)]
  have hsub : ∀ b ∈ kept, b ∈ σ.births := by
    intro b hb
    rw [hkept] at hb
    exact (List.mem_filter.1 hb).1
  rcases RuntimeEvent.run_cases hrun with ⟨input, hinput, hstepped⟩ | ⟨hinput, hsame⟩
  · obtain ⟨added, hrequests, hdeadline, hnone⟩ := hstepped.requests
    have hpending : e'.pendingRequests = kept.map Prod.fst ++ added := by
      rw [hrequests, ← hrecords, List.filter_map, hkept, hinput]
      rfl
    refine ⟨kept, added, hpending, hbirths added hpending, hsub, hdeadline, fun hne => ⟨input, hinput, ?_⟩⟩
    by_contra hqueues
    exact hne (hnone (Bool.eq_false_iff.2 hqueues))
  · have hpending : e'.pendingRequests = kept.map Prod.fst ++ [] := by
      rw [hsame.requests, ← hrecords, hkept, hinput, List.append_nil]
      congr 1
      exact (List.filter_eq_self.2 fun _ _ => rfl).symm
    exact ⟨kept, [], hpending, hbirths [] hpending, hsub, fun r hr => (nomatch hr), fun hne => absurd rfl hne⟩

theorem BirthInv.process {σ : Node} {event : RuntimeEvent} {rest : List RuntimeEvent} {e' : NodeEngine}
    {acts : List NodeAction} (hI : BirthInv σ) (htimely : Timely σ event)
    (hrun : event.run ck σ.engine = .ok (e', acts)) :
    BirthInv { σ with engine := e', events := rest, actions := acts, births := σ.birthsAfter event e' } := by
  obtain ⟨kept, added, hpending, hbirths, hsub, hdeadline, hqueues⟩ := birthsAfter_spec hI.requests hrun
  refine ⟨?_, fun b hb => ?_⟩
  · simp only [hbirths, hpending, List.map_append, List.map_map, Function.comp_def, List.map_id']
  · simp only [hbirths] at hb
    rcases List.mem_append.1 hb with hold | hnew
    · exact hI.deadlines b (hsub b hold)
    · obtain ⟨r, hr, rfl⟩ := List.mem_map.1 hnew
      obtain ⟨input, hinput, hq⟩ := hqueues (List.ne_nil_of_mem hr)
      obtain ⟨htime, hfits⟩ := htimely input hinput hq
      dsimp only
      rw [hdeadline r hr, htime, toNat_saturatingAdd]
      omega

theorem BirthInv.step {σ σ' : Node} (hI : BirthInv σ) (h : Node.Step ck biased Timely σ σ') : BirthInv σ' := by
  cases h with
  | advance _ => exact ⟨hI.requests, hI.deadlines⟩
  | arrive _ => exact ⟨hI.requests, hI.deadlines⟩
  | process _ _ hcond hrun => exact hI.process hcond hrun
  | perform _ => exact ⟨hI.requests, hI.deadlines⟩
  | deliver _ => exact ⟨hI.requests, hI.deadlines⟩
  | fire _ _ _ => exact ⟨hI.requests, hI.deadlines⟩

theorem Node.Reached.birthInv {σ : Node} (h : Node.Reached ck biased Timely σ) : BirthInv σ := by
  induction h with
  | start blockchain now => exact ⟨rfl, fun b hb => nomatch hb⟩
  | step _ hstep ih => exact ih.step hstep

/-- **Requests are not expired early.** In every run in which the engine's time is the clock's whenever an event makes it
ask for blocks, a tick removes a request that was queued at real time `t` only if the tick's time is at least `t` plus the
timeout. -/
theorem requests_not_expired_early {σ : Node} (h : Node.Reached ck biased Timely σ) :
    σ.births.map Prod.fst = σ.engine.pendingRequests ∧
      ∀ now e' acts, σ.engine.step ck (.tick now) = .ok (e', acts) →
        ∀ r t, (r, t) ∈ σ.births → r ∉ e'.pendingRequests → t.toNat + requestTimeoutMs.toNat ≤ now.toNat := by
  refine ⟨h.birthInv.requests, fun now e' acts hstep r t hbirth hremoved => ?_⟩
  obtain ⟨added, hrequests, -, -⟩ := (NodeEngine.step_requests_spec hstep).requests
  have hopen : r ∈ σ.engine.pendingRequests := by
    rw [← h.birthInv.requests]
    exact List.mem_map_of_mem hbirth
  -- what a tick does not keep has a deadline that is over
  have hexpired : r.deadlineMs ≤ now := by
    by_contra hlate
    refine hremoved ?_
    rw [hrequests]
    exact List.mem_append_left _ (List.mem_filter.2 ⟨hopen, decide_eq_true (not_le.1 hlate)⟩)
  have hdeadline := h.birthInv.deadlines _ hbirth
  calc t.toNat + requestTimeoutMs.toNat = r.deadlineMs.toNat := hdeadline.symm
    _ ≤ now.toNat := UInt64.le_iff_toNat_le.1 hexpired

/-! ## Schedules that can be run -/

def RuntimeEvent.tickTime : RuntimeEvent → Option UInt64
  | .tick nowMs => some nowMs
  | _ => none

theorem RuntimeEvent.eq_tick {event : RuntimeEvent} {now : UInt64} (h : event.tickTime = some now) : event = .tick now := by
  cases event with
  | tick nowMs => rw [Option.some.inj h]
  | _ => cases h

inductive Move where
  | advance (now : UInt64)
  | arrive (event : RuntimeEvent)
  | process
  | perform
  | deliver
  | fire

/-- the step a move names, if it is possible -/
def Node.exec (ck : OverflowChecks) (biased : Bool) (C : Node → RuntimeEvent → Prop) [∀ σ event, Decidable (C σ event)]
    (σ : Node) : Move → Option Node
  | .advance now => if σ.clock ≤ now then some { σ with clock := now } else none
  | .arrive event => if event.tickTime = none then some { σ with events := σ.events ++ [event] } else none
  | .process =>
    match σ.actions, σ.events with
    | [], event :: rest =>
      if C σ event then
        match event.run ck σ.engine with
        | .ok (e', acts) =>
          some { σ with engine := e', events := rest, actions := acts, births := σ.birthsAfter event e' }
        | .error _ => none
      else none
    | _, _ => none
  | .perform =>
    match σ.actions with
    | action :: rest => some { σ with actions := rest, commands := σ.commands ++ action.wakeCommand.toList }
    | [] => none
  | .deliver =>
    match σ.commands with
    | command :: rest => some { σ with commands := rest, nextTickAtMs := command.apply σ.nextTickAtMs }
    | [] => none
  | .fire =>
    match σ.nextTickAtMs with
    | some deadline =>
      if deadline ≤ σ.clock ∧ (biased = true → σ.commands = []) then
        some { σ with nextTickAtMs := none, events := σ.events ++ [.tick σ.clock] }
      else none
    | none => none

def Node.machine (ck : OverflowChecks) (biased : Bool) (C : Node → RuntimeEvent → Prop)
    [∀ σ event, Decidable (C σ event)] : Machine Node Move where
  init σ := ∃ blockchain now, σ = .start blockchain now
  exec := Node.exec ck biased C

section Exec

variable [∀ σ event, Decidable (C σ event)]

theorem Node.exec_sound {σ σ' : Node} {move : Move} (h : σ.exec ck biased C move = some σ') :
    Node.Step ck biased C σ σ' := by
  cases move with
  | advance now =>
    simp only [exec] at h
    split_ifs at h with hlater
    cases h
    exact .advance hlater
  | arrive event =>
    simp only [exec] at h
    split_ifs at h with hother
    cases h
    refine .arrive fun t ht => ?_
    rw [ht] at hother
    cases hother
  | process =>
    simp only [exec] at h
    split at h
    · rename_i event rest hidle hnext
      split_ifs at h with hcond
      split at h
      · rename_i e' acts hrun
        cases h
        exact .process hidle hnext hcond hrun
      · cases h
    · cases h
  | perform =>
    simp only [exec] at h
    split at h
    · rename_i hnext
      cases h
      exact .perform hnext
    · cases h
  | deliver =>
    simp only [exec] at h
    split at h
    · rename_i hnext
      cases h
      exact .deliver hnext
    · cases h
  | fire =>
    simp only [exec] at h
    split at h
    · rename_i deadline harmed
      split_ifs at h with hdue
      cases h
      exact .fire harmed hdue.1 hdue.2
    · cases h

/-- a schedule that can be run reaches its last state -/
theorem Node.Reached.of_schedule {σ σ' : Node} (h : Node.Reached ck biased C σ) {moves : List Move}
    (hmoves : (Node.machine ck biased C).replay (fun _ _ => True) moves σ = some σ') : Node.Reached ck biased C σ' :=
  Machine.replay_invariant (fun _ _ _ hreached _ hexec => hreached.step (Node.exec_sound hexec)) h hmoves

end Exec

instance (σ : Node) (event : RuntimeEvent) : Decidable (Timely σ event) :=
  match hinput : event.input with
  | none => .isTrue fun input h => by rw [hinput] at h; cases h
  | some input =>
    decidable_of_iff (σ.engine.queues input = true →
        σ.engine.currentTimeMs = σ.clock ∧ σ.clock.toNat + requestTimeoutMs.toNat < 2 ^ 64)
      ⟨fun h input' h' => by rw [hinput] at h'; cases h'; exact h, fun h => h input hinput⟩

end Wake

section Witness

open Sample

/-! ### The heartbeat's tick is processed, then a peer connects at that very time -/

def onTime : List Move :=
  [.advance 1001000, .fire, .process, .arrive (.peerConnected peer), .process, .perform, .perform, .perform, .deliver]

def asked : Node :=
  ((Node.machine .release false Timely).replay (fun _ _ => True) onTime (.start .new 1000000)).get (by decide +kernel)

theorem asked_reached : Node.Reached .release false Timely asked :=
  (Node.Reached.start .new 1000000).of_schedule (Option.some_get _).symm

/-- the request queued at 1001000 is removed at 1031000, not at 1030999 -/
theorem requests_not_expired_early_of_asked :
    asked.births = [(⟨peer, 1, 100, 1031000⟩, 1001000)] ∧
      ∀ now e' acts, asked.engine.step .release (.tick now) = .ok (e', acts) →
        (⟨peer, 1, 100, 1031000⟩ : PendingRequest) ∉ e'.pendingRequests → 1031000 ≤ now.toNat := by
  have hbirths : asked.births = [(⟨peer, 1, 100, 1031000⟩, 1001000)] := by decide +kernel
  refine ⟨hbirths, fun now e' acts hstep hremoved => ?_⟩
  exact (requests_not_expired_early asked_reached).2 now e' acts hstep _ _ (hbirths ▸ List.mem_singleton_self _) hremoved

/-! ### A peer connects before the first tick, when the engine's time is still 0 -/

def tooSoon : List Move :=
  [.arrive (.peerConnected peer), .process, .perform, .perform, .perform, .deliver, .fire]

def fired : Node :=
  ((Node.machine .release false fun _ _ => True).replay (fun _ _ => True) tooSoon (.start .new 1000000)).get (by decide +kernel)

theorem fired_reached : Node.Reached .release false (fun _ _ => True) fired :=
  (Node.Reached.start .new 1000000).of_schedule (Option.some_get _).symm

/-- the request queued at 1000000 is removed by the tick of that very millisecond -/
theorem request_expired_at_once :
    ∃ σ : Node, Node.Reached .release false (fun _ _ => True) σ ∧
      ∃ now rest, σ.events = .tick now :: rest ∧ ∃ e' acts, σ.engine.step .release (.tick now) = .ok (e', acts) ∧
        ∃ r t, (r, t) ∈ σ.births ∧ r ∈ σ.engine.pendingRequests ∧ r ∉ e'.pendingRequests ∧
          now.toNat < t.toNat + requestTimeoutMs.toNat := by
  have hevents : fired.events.map RuntimeEvent.tickTime = [some 1000000] := by decide +kernel
  obtain ⟨event, hevent, htick⟩ := List.map_eq_singleton_iff.1 hevents
  have hstep : ((fired.engine.step .release (.tick 1000000)).toOption.map fun r => r.1.pendingRequests) = some [] := by
    decide +kernel
  obtain ⟨⟨e', acts⟩, hok, hnone⟩ := Option.map_eq_some_iff.1 hstep
  refine ⟨fired, fired_reached, 1000000, [], ?_, e', acts, ?_, ⟨peer, 1, 100, 30000⟩, 1000000, by decide +kernel,
    by decide +kernel, ?_, by decide⟩
  · rw [hevent, RuntimeEvent.eq_tick htick]
  · cases hres : fired.engine.step .release (.tick 1000000) with
    | error f => rw [hres] at hok; cases hok
    | ok r => rw [hres] at hok; cases hok; rfl
  · simp only at hnone
    rw [hnone]
    exact List.not_mem_nil

/-- the wake-up of that run, before it was overtaken by its own tick -/
theorem no_lost_wake_up_of_fired :
    fired.engine.scheduledWakeAtMs = some 30000 ∧ fired.drained = none ∧
      (fired.drained = some 30000 ∨ ∃ now, .tick now ∈ fired.events ∧ (30000 : UInt64) ≤ now) := by
  refine ⟨by decide +kernel, by decide +kernel, ?_⟩
  exact (no_lost_wake_up fired_reached).2 30000 (by decide +kernel)

end Witness

end RustProof
