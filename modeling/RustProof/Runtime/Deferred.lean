/-
What becomes of the commands of an established session of erp-runtime (`run_established_session`, `wait_for_sync_response`
and `restore_deferred_commands` of erp-runtime/src/network/session.rs).

To answer a sync request, a session waits for a command with the sync response. `wait_for_sync_response` takes one command
after the other and retains, encoded anew, every frame that is something else. When the response has come, what was
retained goes back in front of the deferred commands, and the main loop takes these before it looks at its channel.

One worker runs against any other side: whatever substreams that side opens, writes, reads and ends, and whenever commands
are sent, is a run. Not part of the program is what is recorded about the past (`RecordedSession`). Commands are compared
by what their reader makes of them (`CommandReading`): a retained frame need not have the bytes of the one that was sent.

Results:
- `session_is_a_mailbox`: as long as each wait has returned `Ok`, channel, deferred commands and retained commands are one
  mailbox, from which the main loop takes the first command and a wait picks the first sync response;
- `waiting_keeps_commands`: so a wait returns the first sync response, and the main loop executes everything else once and
  in order, as far as the session gets;
- `executed_until_a_failure`: a frame that the main loop cannot send ends the session, and those behind it are not
  executed.
-/
import RustProof.Lib.Mailbox
import RustProof.Node.Sample
import RustProof.Runtime.Session

namespace RustProof

section Deferred

variable [Crypto]

/-! ## Commands by what they say -/

/-- what its reader makes of a command -/
inductive CommandReading where
  | message (message : NetworkMessage)
  /-- a frame that `NetworkMessage::from_bytes` rejects -/
  | invalid (frame : Frame)
  | disconnect

def CommandReading.syncResponse : CommandReading → Option SyncResponse
  | .message (.syncResponse response) => some response
  | _ => none

def CommandReading.isSyncResponse (r : CommandReading) : Bool := r.syncResponse.isSome

namespace SessionCommand

def reading : SessionCommand → CommandReading
  | .sendFrame frame =>
    match NetworkMessage.fromBytes frame with
    | .ok message => .message message
    | .error _ => .invalid frame
  | .disconnect => .disconnect

/-- the command as `wait_for_sync_response` retains it -/
def encodedAnew : SessionCommand → SessionCommand
  | .sendFrame frame =>
    match NetworkMessage.fromBytes frame with
    | .ok message => .sendFrame message.toBytes
    | .error _ => .sendFrame frame
  | .disconnect => .disconnect

/-- what `wait_for_sync_response` returns when it takes the command, if it returns -/
def waitResult (command : SessionCommand) : Option (Except String SyncResponse) :=
  match command.reading with
  | .message (.syncResponse response) => some (.ok response)
  | .message _ => none
  | .invalid _ => some (.error "invalid runtime frame while waiting for sync response")
  | .disconnect => some (.error "session disconnected while waiting for sync response")

end SessionCommand

def readings (commands : List SessionCommand) : List CommandReading := commands.map SessionCommand.reading

/-- the first sync response in a queue -/
def firstSyncResponse (queue : List SessionCommand) : Option SyncResponse :=
  (readings queue).findSome? CommandReading.syncResponse

/-- what is not a sync response -/
def otherReadings (commands : List SessionCommand) : List CommandReading :=
  Mailbox.others CommandReading.isSyncResponse (readings commands)

theorem readings_append (l l' : List SessionCommand) : readings (l ++ l') = readings l ++ readings l' := List.map_append

theorem readings_cons (command : SessionCommand) (l : List SessionCommand) :
    readings (command :: l) = command.reading :: readings l := rfl

theorem reading_toBytes {m : NetworkMessage} (hs : m.Sized) :
    (SessionCommand.sendFrame m.toBytes).reading = .message m := by
  have hround := fromBytes_toBytes_message hs []
  rw [List.append_nil] at hround
  rw [SessionCommand.reading, hround]

/-- a retained frame decodes to the same message -/
theorem reading_encodedAnew (command : SessionCommand) : command.encodedAnew.reading = command.reading := by
  cases command with
  | disconnect => rfl
  | sendFrame frame =>
    cases hframe : NetworkMessage.fromBytes frame with
    | error e => simp only [SessionCommand.encodedAnew, SessionCommand.reading, hframe]
    | ok message =>
      simp only [SessionCommand.encodedAnew, hframe, reading_toBytes (fromBytes_sized hframe)]
      rw [SessionCommand.reading, hframe]

theorem syncResponse_of_waitResult_none {command : SessionCommand} (h : command.waitResult = none) :
    command.reading.syncResponse = none := by
  unfold SessionCommand.waitResult at h
  split at h
  · cases h
  · rename_i message hnot hreading
    rw [hreading]
    cases message with
    | syncResponse response => exact absurd rfl (hnot response)
    | _ => rfl
  · cases h
  · cases h

theorem reading_of_waitResult_ok {command : SessionCommand} {response : SyncResponse}
    (h : command.waitResult = some (.ok response)) : command.reading = .message (.syncResponse response) := by
  unfold SessionCommand.waitResult at h
  split at h
  · rename_i response' hreading
    cases h
    exact hreading
  · cases h
  · cases h
  · cases h

/-! ## The queues of a worker -/

/-- what an open `wait_for_sync_response` has retained -/
def Task.retained : Task → Option (List SessionCommand)
  | .serveSync _ retained => some retained
  | _ => none

namespace SessionWorker

/-- the deferred commands, then the channel -/
def queue (w : SessionWorker) : List SessionCommand := w.deferredCommands ++ w.commands

def pending (w : SessionWorker) : List SessionCommand := w.task.retained.getD [] ++ w.queue

/-- the command that the main loop takes in a move -/
def executes (w : SessionWorker) : WorkerMove → List SessionCommand
  | .command =>
    match w.task, w.nextCommand with
    | .idle, some (command, _) => [command]
    | _, _ => []
  | _ => []

/-- what a `wait_for_sync_response` returns in a move -/
def returns (w : SessionWorker) : WorkerMove → List (Except String SyncResponse)
  | .command =>
    match w.task, w.nextCommand with
    | .serveSync _ _, some (command, _) => command.waitResult.toList
    | _, _ => []
  | .closed =>
    match w.task with
    | .serveSync _ _ => [.error "session command channel closed while waiting for sync response"]
    | _ => []
  | _ => []

end SessionWorker

def WorkerMove.pushed : WorkerMove → List SessionCommand
  | .push sent => [sent]
  | _ => []

theorem pending_of_closed {w : SessionWorker} (h : w.task.retained = none) : w.pending = w.queue := by
  rw [SessionWorker.pending, h]
  rfl

theorem pending_of_open {w : SessionWorker} {retained : List SessionCommand} (h : w.task.retained = some retained) :
    w.pending = retained ++ w.queue := by
  rw [SessionWorker.pending, h]
  rfl

theorem pending_of_fresh {w : SessionWorker} (h : ∀ r, w.task.retained = some r → r = []) : w.pending = w.queue := by
  cases hr : w.task.retained with
  | none => exact pending_of_closed hr
  | some r =>
    rw [pending_of_open hr, h r hr]
    rfl

theorem nextCommand_queue {w w' : SessionWorker} {command : SessionCommand} (h : w.nextCommand = some (command, w')) :
    w.queue = command :: w'.queue ∧ w'.deferredCommands ⊆ w.deferredCommands := by
  unfold SessionWorker.nextCommand at h
  split at h
  · rename_i first rest hdeferred
    cases h
    refine ⟨?_, ?_⟩
    · rw [SessionWorker.queue, hdeferred]
      rfl
    · rw [hdeferred]
      exact List.subset_cons_self _ _
  · rename_i first rest hdeferred hcommands
    cases h
    refine ⟨?_, List.Subset.refl _⟩
    simp only [SessionWorker.queue, hdeferred, hcommands, List.nil_append]
  · cases h

theorem nextCommand_of_queue {w : SessionWorker} {command : SessionCommand} {rest : List SessionCommand}
    (h : w.queue = command :: rest) : ∃ w', w.nextCommand = some (command, w') ∧ w'.queue = rest := by
  cases hnext : w.nextCommand with
  | none =>
    unfold SessionWorker.nextCommand at hnext
    split at hnext
    · cases hnext
    · cases hnext
    · rename_i hdeferred hcommands
      rw [SessionWorker.queue, hdeferred, hcommands] at h
      cases h
  | some next =>
    obtain ⟨command', w'⟩ := next
    obtain ⟨hqueue, -⟩ := nextCommand_queue hnext
    rw [hqueue] at h
    cases h
    exact ⟨w', rfl, rfl⟩

/-- the loop of `restore_deferred_commands`, which takes from the back of the one queue and puts in front of the other -/
theorem restoreDeferredCommands_loop (w : SessionWorker) (retained : List SessionCommand) :
    (w.restoreDeferredCommands retained).deferredCommands =
      retained.reverse.foldl (fun deferred command => command :: deferred) w.deferredCommands := by
  rw [SessionWorker.restoreDeferredCommands, List.foldl_reverse]
  exact List.foldr_cons_eq_append'.symm

/-- one turn of `wait_for_sync_response`, by what it returns -/
theorem waitForSyncResponse_eq (w : SessionWorker) (i : ℕ) (retained : List SessionCommand) (command : SessionCommand) :
    w.waitForSyncResponse i retained command =
      match command.waitResult with
      | none => ({ w with task := .serveSync i (retained ++ [command.encodedAnew]) }, none)
      | some (.error e) => (w.fail e, none)
      | some (.ok response) =>
        if response.toPostcard.length > w.maxFrameLen then
          ((w.restoreDeferredCommands retained).fail "payload exceeds configured frame length limit", none)
        else
          ({ w.restoreDeferredCommands retained with task := .idle }, some (.payload response.toPostcard)) := by
  cases command with
  | disconnect => rfl
  | sendFrame frame =>
    simp only [SessionWorker.waitForSyncResponse, SessionCommand.waitResult, SessionCommand.reading,
      SessionCommand.encodedAnew]
    cases NetworkMessage.fromBytes frame with
    | error e => rfl
    | ok message =>
      cases message with
      | _ => rfl

/-! ## What a move does to the queues -/

/-- a move of the worker that takes these pushed commands in, executes and returns these, and leads to this worker -/
inductive Handled (me : SessionWorker) : List SessionCommand → List SessionCommand → List (Except String SyncResponse) →
    SessionWorker → Prop
  | pushes {me' : SessionWorker} {command : SessionCommand} (task : me'.task = me.task)
      (deferred : me'.deferredCommands = me.deferredCommands) (commands : me'.commands = me.commands ++ [command]) :
      Handled me [command] [] [] me'
  | executes {me' : SessionWorker} {command : SessionCommand} (idle : me.task.retained = none)
      (closed : me'.task.retained = none) (queue : me.queue = command :: me'.queue)
      (deferred : me'.deferredCommands ⊆ me.deferredCommands) : Handled me [] [command] [] me'
  | retains {me' : SessionWorker} {command : SessionCommand} {retained : List SessionCommand}
      (opened : me.task.retained = some retained) (goesOn : me'.task.retained = some (retained ++ [command.encodedAnew]))
      (result : command.waitResult = none) (queue : me.queue = command :: me'.queue)
      (deferred : me'.deferredCommands ⊆ me.deferredCommands) : Handled me [] [] [] me'
  | responds {me' : SessionWorker} {command : SessionCommand} {retained rest : List SessionCommand}
      {response : SyncResponse} (opened : me.task.retained = some retained) (closed : me'.task.retained = none)
      (result : command.waitResult = some (.ok response)) (queue : me.queue = command :: rest)
      (restored : me'.queue = retained ++ rest)
      (deferred : me'.deferredCommands ⊆ retained ++ me.deferredCommands) : Handled me [] [] [.ok response] me'
  | fails {me' : SessionWorker} (error : String) (closed : me'.task.retained = none)
      (deferred : me'.deferredCommands ⊆ me.deferredCommands) : Handled me [] [] [.error error] me'
  | leaves {me' : SessionWorker} (idle : me.task.retained = none) (task : ∀ r, me'.task.retained = some r → r = [])
      (deferred : me'.deferredCommands = me.deferredCommands) (commands : me'.commands = me.commands) :
      Handled me [] [] [] me'

theorem handleOutboundFrame_queue (w : SessionWorker) (frame : Frame) :
    (w.handleOutboundFrame frame).task.retained = none ∧
      (w.handleOutboundFrame frame).deferredCommands = w.deferredCommands ∧
      (w.handleOutboundFrame frame).commands = w.commands := by
  fun_cases SessionWorker.handleOutboundFrame w frame
  all_goals exact ⟨rfl, rfl, rfl⟩

theorem dialRead_queue (w : SessionWorker) (request : Request) (i : ℕ) (stage : DialStage) (packet : Packet) :
    (w.dialRead request i stage packet).1.task.retained = none ∧
      (w.dialRead request i stage packet).1.deferredCommands = w.deferredCommands ∧
      (w.dialRead request i stage packet).1.commands = w.commands := by
  fun_cases SessionWorker.dialRead w request i stage packet
  all_goals exact ⟨rfl, rfl, rfl⟩

/-- a wait begins with nothing retained -/
theorem listenRead_queue (w : SessionWorker) (i : ℕ) (stage : ListenStage) (packet : Packet) :
    (∀ r, (w.listenRead i stage packet).1.task.retained = some r → r = []) ∧
      (w.listenRead i stage packet).1.deferredCommands = w.deferredCommands ∧
      (w.listenRead i stage packet).1.commands = w.commands := by
  fun_cases SessionWorker.listenRead w i stage packet
  all_goals
    refine ⟨?_, rfl, rfl⟩
    intro r hr
    cases hr
  rfl

/-- one turn of an open wait -/
theorem handled_waitForSyncResponse {me me₁ : SessionWorker} {i : ℕ} {retained : List SessionCommand}
    {command : SessionCommand} (htask : me.task = .serveSync i retained) (hnext : me.nextCommand = some (command, me₁)) :
    Handled me [] [] command.waitResult.toList (me₁.waitForSyncResponse i retained command).1 := by
  obtain ⟨hqueue, hdeferred⟩ := nextCommand_queue hnext
  have hopened : me.task.retained = some retained := congrArg Task.retained htask
  rw [waitForSyncResponse_eq]
  cases hresult : command.waitResult with
  | none => exact .retains hopened rfl hresult hqueue hdeferred
  | some result =>
    cases result with
    | error e => exact .fails e rfl hdeferred
    | ok response =>
      have hrestored : retained ++ me₁.deferredCommands ⊆ retained ++ me.deferredCommands :=
        List.append_subset.2 ⟨List.subset_append_left _ _, List.subset_append_of_subset_right _ hdeferred⟩
      dsimp only
      split_ifs
      · exact .responds hopened rfl hresult hqueue (List.append_assoc _ _ _) hrestored
      · exact .responds hopened rfl hresult hqueue (List.append_assoc _ _ _) hrestored

/-- everything that a move does to the queues -/
theorem handled_of_exec {me me' other other' : SessionWorker} {move : WorkerMove}
    (h : me.exec other move = some (me', other')) :
    Handled me move.pushed (me.executes move) (me.returns move) me' := by
  cases move with
  | push command =>
    cases h
    exact .pushes rfl rfl rfl
  | command =>
    simp only [SessionWorker.exec] at h
    split at h
    · rename_i frame me₁ hidle hnext
      cases h
      obtain ⟨hqueue, hsub⟩ := nextCommand_queue hnext
      obtain ⟨htask, hdeferred, hcommands⟩ := handleOutboundFrame_queue me₁ frame
      simp only [WorkerMove.pushed, SessionWorker.executes, SessionWorker.returns, hidle, hnext]
      refine .executes (congrArg Task.retained hidle) htask ?_ (hdeferred ▸ hsub)
      rw [hqueue, SessionWorker.queue, SessionWorker.queue, hdeferred, hcommands]
    · rename_i me₁ hidle hnext
      cases h
      obtain ⟨hqueue, hsub⟩ := nextCommand_queue hnext
      simp only [WorkerMove.pushed, SessionWorker.executes, SessionWorker.returns, hidle, hnext]
      exact .executes (congrArg Task.retained hidle) rfl hqueue hsub
    · rename_i i retained command me₁ hserve hnext
      cases h
      simp only [WorkerMove.pushed, SessionWorker.executes, SessionWorker.returns, hserve, hnext]
      exact handled_waitForSyncResponse hserve hnext
    · cases h
  | accept =>
    simp only [SessionWorker.exec] at h
    split at h
    · rename_i hidle hdeferred
      split_ifs at h
      cases h
      exact .leaves (congrArg Task.retained hidle) (fun _ hr => by cases hr) rfl rfl
    · cases h
  | read =>
    simp only [SessionWorker.exec] at h
    split at h
    · rename_i request stage i htask
      obtain ⟨⟨packet, opened⟩, -, heq⟩ := Option.map_eq_some_iff.1 h
      cases heq
      obtain ⟨hretained, hdeferred, hcommands⟩ := dialRead_queue me request i stage packet
      refine .leaves (congrArg Task.retained htask) ?_ hdeferred hcommands
      intro r hr
      cases hretained.symm.trans hr
    · rename_i stage i htask
      obtain ⟨⟨packet, opened⟩, -, heq⟩ := Option.map_eq_some_iff.1 h
      cases heq
      obtain ⟨hretained, hdeferred, hcommands⟩ := listenRead_queue me i stage packet
      exact .leaves (congrArg Task.retained htask) hretained hdeferred hcommands
    · cases h
  | closed =>
    simp only [SessionWorker.exec] at h
    split at h
    · rename_i hidle hnext
      cases h
      simp only [SessionWorker.returns, hidle]
      exact .leaves (congrArg Task.retained hidle) (fun _ hr => by cases hr) rfl rfl
    · rename_i hserve hnext
      cases h
      simp only [SessionWorker.returns, hserve]
      exact .fails _ rfl (List.Subset.refl _)
    · cases h
  | eof =>
    simp only [SessionWorker.exec] at h
    split at h
    · rename_i hidle hdeferred
      cases h
      exact .leaves (congrArg Task.retained hidle) (fun _ hr => by cases hr) rfl rfl
    · rename_i htask
      cases h
      exact .leaves (congrArg Task.retained htask) (fun _ hr => by cases hr) rfl rfl
    · rename_i htask
      cases h
      exact .leaves (congrArg Task.retained htask) (fun _ hr => by cases hr) rfl rfl
    · cases h

/-! ## Runs of one worker -/

/-- a `wait_for_sync_response` that has returned -/
structure WaitCall where
  /-- the deferred commands and the channel when it was called, and what was sent while it waited -/
  queue : List SessionCommand
  result : Except String SyncResponse

/-- a worker, and what is recorded about its commands -/
structure RecordedSession where
  worker : SessionWorker
  /-- the deferred commands and the channel at the start, and what was sent since -/
  enqueued : List SessionCommand
  /-- by the main loop -/
  executed : List SessionCommand
  /-- the `queue` of the open wait -/
  waiting : List SessionCommand
  calls : List WaitCall

inductive SessionMove where
  /-- the worker makes a move while the other side is at `remote` -/
  | worker (move : WorkerMove) (remote : SessionWorker)
  /-- the other side reads and writes the substreams that the worker has opened -/
  | remote (opened : List Substream)

namespace RecordedSession

def after (σ : RecordedSession) (pushed executed : List SessionCommand) (returned : List (Except String SyncResponse))
    (worker : SessionWorker) : RecordedSession :=
  { worker := worker
    enqueued := σ.enqueued ++ pushed
    executed := σ.executed ++ executed
    waiting :=
      match σ.worker.task.retained with
      | some _ => σ.waiting ++ pushed
      | none => worker.queue
    calls := σ.calls ++ returned.map fun result => ⟨σ.waiting, result⟩ }

def exec (σ : RecordedSession) : SessionMove → Option RecordedSession
  | .worker move remote =>
    (σ.worker.exec remote move).map fun p =>
      σ.after move.pushed (σ.worker.executes move) (σ.worker.returns move) p.1
  | .remote opened => some { σ with worker := { σ.worker with opened := opened } }

/-- a worker with these commands deferred and in its channel -/
def start (worker : SessionWorker) : RecordedSession :=
  { worker := worker
    enqueued := worker.queue
    executed := []
    waiting := worker.queue
    calls := [] }

/-- all runs from the main loop, or from the call of `wait_for_sync_response`, with no sync response deferred -/
def machine : Machine RecordedSession SessionMove where
  init σ := ∃ worker : SessionWorker, (worker.task = .idle ∨ ∃ i, worker.task = .serveSync i []) ∧
    (∀ c ∈ worker.deferredCommands, c.reading.syncResponse = none) ∧ σ = start worker
  exec := exec

/-- each wait has returned `Ok` -/
def WaitsOk (σ : RecordedSession) : Prop := ∀ call ∈ σ.calls, ∃ response, call.result = .ok response

/-- the queues of the session as one mailbox -/
def mailbox (σ : RecordedSession) : Mailbox CommandReading :=
  { put := readings σ.enqueued
    taken := readings σ.executed
    picked := σ.calls.filterMap fun call => call.result.toOption.map fun response => .message (.syncResponse response)
    pending := readings σ.worker.pending }

end RecordedSession

/-! ## What holds in every run -/

theorem firstSyncResponse_behind {retained rest : List SessionCommand} {command : SessionCommand} {response : SyncResponse}
    (hretained : ∀ c ∈ retained, c.reading.syncResponse = none)
    (hreading : command.reading = .message (.syncResponse response)) :
    (readings (retained ++ command :: rest)).findSome? CommandReading.syncResponse = some response := by
  have hnone : (readings retained).findSome? CommandReading.syncResponse = none := by
    rw [readings, List.findSome?_map]
    exact List.findSome?_eq_none_iff.2 hretained
  rw [readings_append, List.findSome?_append, hnone, readings_cons, hreading]
  rfl

structure CommandInv (σ : RecordedSession) : Prop where
  deferred : ∀ c ∈ σ.worker.deferredCommands, c.reading.syncResponse = none
  retained : ∀ r, σ.worker.task.retained = some r → ∀ c ∈ r, c.reading.syncResponse = none
  /-- an open wait has its queue still before it, but for what it has retained -/
  waiting : ∀ r, σ.worker.task.retained = some r → readings σ.waiting = readings (r ++ σ.worker.queue)
  calls : ∀ call ∈ σ.calls, ∀ response, call.result = .ok response → firstSyncResponse call.queue = some response
  mailbox : σ.WaitsOk → ∃ messages, Mailbox.Run CommandReading.isSyncResponse (.start messages) σ.mailbox

section Step

variable {σ : RecordedSession} {me' : SessionWorker} {pushed executed : List SessionCommand}
  {returned : List (Except String SyncResponse)}

theorem RecordedSession.WaitsOk.of_after (h : (σ.after pushed executed returned me').WaitsOk) :
    σ.WaitsOk ∧ ∀ result ∈ returned, ∃ response, result = .ok response := by
  refine ⟨?_, ?_⟩
  · intro call hcall
    exact h call (List.mem_append_left _ hcall)
  · intro result hresult
    exact h ⟨σ.waiting, result⟩ (List.mem_append_right _ (List.mem_map_of_mem hresult))

/-- a move leaves the mailbox alone or is one step of it -/
theorem mailbox_after (h : Handled σ.worker pushed executed returned me')
    (hretained : ∀ r, σ.worker.task.retained = some r → ∀ c ∈ r, c.reading.syncResponse = none)
    (hok : ∀ result ∈ returned, ∃ response, result = .ok response) :
    (σ.after pushed executed returned me').mailbox = σ.mailbox ∨
      Mailbox.Step CommandReading.isSyncResponse σ.mailbox (σ.after pushed executed returned me').mailbox := by
  cases h with
  | pushes task deferred commands =>
    rename_i command
    right
    have hpending : me'.pending = σ.worker.pending ++ [command] := by
      simp only [SessionWorker.pending, SessionWorker.queue, task, deferred, commands, List.append_assoc]
    simp only [RecordedSession.mailbox, RecordedSession.after, hpending, readings_append, List.append_nil, List.map_nil]
    exact .put _ _ _ _ _
  | executes idle closed queue deferred =>
    rename_i command
    right
    have hbefore : σ.worker.pending = command :: me'.queue := (pending_of_closed idle).trans queue
    have hafter : me'.pending = me'.queue := pending_of_closed closed
    simp only [RecordedSession.mailbox, RecordedSession.after, hbefore, hafter, readings_append, List.append_nil,
      List.map_nil]
    exact .take _ _ _ _ _
  | retains opened goesOn result queue deferred =>
    rename_i command retained
    left
    have hpending : readings me'.pending = readings σ.worker.pending := by
      -- the command has gone from the front of the queue to the end of what is retained
      rw [pending_of_open opened, pending_of_open goesOn, queue]
      simp only [readings_append, readings_cons, reading_encodedAnew, List.append_assoc]
      rfl
    simp only [RecordedSession.mailbox, RecordedSession.after, hpending, List.append_nil, List.map_nil]
  | responds opened closed result queue restored deferred =>
    rename_i command retained rest response
    right
    have hreading := reading_of_waitResult_ok result
    have hbefore : readings σ.worker.pending = readings retained ++ .message (.syncResponse response) :: readings rest := by
      rw [pending_of_open opened, queue, readings_append, readings_cons, hreading]
    have hafter : readings me'.pending = readings retained ++ readings rest := by
      rw [pending_of_closed closed, restored, readings_append]
    simp only [RecordedSession.mailbox, RecordedSession.after, hbefore, hafter, List.append_nil, List.map_cons,
      List.map_nil, List.filterMap_append]
    refine .pick _ _ _ _ _ _ ?_ rfl
    intro r hr
    obtain ⟨c, hc, rfl⟩ := List.mem_map.1 hr
    rw [CommandReading.isSyncResponse, hretained retained opened c hc]
    rfl
  | fails error closed deferred =>
    obtain ⟨response, hresponse⟩ := hok _ List.mem_cons_self
    cases hresponse
  | leaves idle task deferred commands =>
    left
    have hpending : me'.pending = σ.worker.pending := by
      rw [pending_of_fresh task, pending_of_closed idle, SessionWorker.queue, SessionWorker.queue, deferred, commands]
    simp only [RecordedSession.mailbox, RecordedSession.after, hpending, List.append_nil, List.map_nil]

theorem deferred_after (h : Handled σ.worker pushed executed returned me') (hI : CommandInv σ) :
    ∀ c ∈ me'.deferredCommands, c.reading.syncResponse = none := by
  intro c hc
  cases h with
  | pushes task deferred commands => exact hI.deferred c (deferred ▸ hc)
  | executes idle closed queue deferred => exact hI.deferred c (deferred hc)
  | retains opened goesOn result queue deferred => exact hI.deferred c (deferred hc)
  | responds opened closed result queue restored deferred =>
    rcases List.mem_append.1 (deferred hc) with hretained | hdeferred
    · exact hI.retained _ opened c hretained
    · exact hI.deferred c hdeferred
  | fails error closed deferred => exact hI.deferred c (deferred hc)
  | leaves idle task deferred commands => exact hI.deferred c (deferred ▸ hc)

/-- what a wait retains is not what it waits for -/
theorem retained_after (h : Handled σ.worker pushed executed returned me') (hI : CommandInv σ) :
    ∀ r, me'.task.retained = some r → ∀ c ∈ r, c.reading.syncResponse = none := by
  intro r hr c hc
  cases h with
  | pushes task deferred commands => exact hI.retained r (task ▸ hr) c hc
  | executes idle closed queue deferred => cases closed.symm.trans hr
  | retains opened goesOn result queue deferred =>
    cases goesOn.symm.trans hr
    rcases List.mem_append.1 hc with hretained | hnew
    · exact hI.retained _ opened c hretained
    · rw [List.mem_singleton.1 hnew, reading_encodedAnew]
      exact syncResponse_of_waitResult_none result
  | responds opened closed result queue restored deferred => cases closed.symm.trans hr
  | fails error closed deferred => cases closed.symm.trans hr
  | leaves idle task deferred commands =>
    rw [task r hr] at hc
    cases hc

theorem waiting_after (h : Handled σ.worker pushed executed returned me') (hI : CommandInv σ) :
    ∀ r, me'.task.retained = some r →
      readings (σ.after pushed executed returned me').waiting = readings (r ++ me'.queue) := by
  intro r hr
  cases h with
  | pushes task deferred commands =>
    rename_i command
    have hqueue : me'.queue = σ.worker.queue ++ [command] := by
      simp only [SessionWorker.queue, deferred, commands, List.append_assoc]
    have hopened : σ.worker.task.retained = some r := task ▸ hr
    simp only [RecordedSession.after, hopened]
    rw [readings_append, hI.waiting r hopened, hqueue, ← List.append_assoc, readings_append (r ++ _)]
  | executes idle closed queue deferred => cases closed.symm.trans hr
  | retains opened goesOn result queue deferred =>
    rename_i command retained
    cases goesOn.symm.trans hr
    simp only [RecordedSession.after, opened, List.append_nil]
    rw [hI.waiting _ opened, queue]
    simp only [readings_append, readings_cons, reading_encodedAnew, List.append_assoc]
    rfl
  | responds opened closed result queue restored deferred => cases closed.symm.trans hr
  | fails error closed deferred => cases closed.symm.trans hr
  | leaves idle task deferred commands =>
    simp only [RecordedSession.after, idle]
    rw [task r hr, List.nil_append]

/-- a wait that returns a response has found it behind what it retained -/
theorem calls_after (h : Handled σ.worker pushed executed returned me') (hI : CommandInv σ) :
    ∀ call ∈ (σ.after pushed executed returned me').calls, ∀ response, call.result = .ok response →
      firstSyncResponse call.queue = some response := by
  intro call hcall response hresult
  rcases List.mem_append.1 hcall with hbefore | hnew
  · exact hI.calls call hbefore response hresult
  · obtain ⟨result, hreturned, rfl⟩ := List.mem_map.1 hnew
    cases h with
    | pushes task deferred commands => cases hreturned
    | executes idle closed queue deferred => cases hreturned
    | retains opened goesOn result queue deferred => cases hreturned
    | responds opened closed taken queue restored deferred =>
      rw [List.mem_singleton.1 hreturned] at hresult
      cases hresult
      rw [firstSyncResponse, hI.waiting _ opened, queue]
      exact firstSyncResponse_behind (hI.retained _ opened) (reading_of_waitResult_ok taken)
    | fails error closed deferred =>
      rw [List.mem_singleton.1 hreturned] at hresult
      cases hresult
    | leaves idle task deferred commands => cases hreturned

theorem CommandInv.after (hI : CommandInv σ) (h : Handled σ.worker pushed executed returned me') :
    CommandInv (σ.after pushed executed returned me') := by
  refine ⟨deferred_after h hI, retained_after h hI, waiting_after h hI, calls_after h hI, ?_⟩
  intro hok
  obtain ⟨hsofar, hreturned⟩ := RecordedSession.WaitsOk.of_after hok
  obtain ⟨messages, hrun⟩ := hI.mailbox hsofar
  rcases mailbox_after h hI.retained hreturned with hsame | hstep
  · exact ⟨messages, hsame ▸ hrun⟩
  · exact ⟨messages, hrun.tail hstep⟩

end Step

theorem commandInv_start {w : SessionWorker} (htask : w.task = .idle ∨ ∃ i, w.task = .serveSync i [])
    (hdeferred : ∀ c ∈ w.deferredCommands, c.reading.syncResponse = none) : CommandInv (.start w) := by
  have hnothing : ∀ r, w.task.retained = some r → r = [] := by
    intro r hr
    rcases htask with hidle | ⟨i, hserve⟩
    · cases (congrArg Task.retained hidle).symm.trans hr
    · cases (congrArg Task.retained hserve).symm.trans hr
      rfl
  have hpending : w.pending = w.queue := pending_of_fresh hnothing
  refine ⟨hdeferred, ?_, ?_, fun _ h => (nomatch h), ?_⟩
  · intro r hr c hc
    rw [hnothing r hr] at hc
    cases hc
  · intro r hr
    rw [hnothing r hr]
    rfl
  · intro _
    refine ⟨readings w.queue, ?_⟩
    rw [RecordedSession.mailbox, RecordedSession.start, hpending]
    exact .refl

theorem CommandInv.step {σ σ' : RecordedSession} {move : SessionMove} (hI : CommandInv σ) (h : σ.exec move = some σ') :
    CommandInv σ' := by
  cases move with
  | worker move remote =>
    obtain ⟨⟨me', remote'⟩, hmove, rfl⟩ := Option.map_eq_some_iff.1 h
    exact hI.after (handled_of_exec hmove)
  | remote opened =>
    cases h
    exact ⟨hI.deferred, hI.retained, hI.waiting, hI.calls, hI.mailbox⟩

theorem commandInv_of_reached {σ : RecordedSession} (h : RecordedSession.machine.Reached (fun _ _ => True) σ) :
    CommandInv σ := by
  refine h.invariant ?_ fun σ move σ' hI _ hexec => hI.step hexec
  rintro _ ⟨worker, htask, hdeferred, rfl⟩
  exact commandInv_start htask hdeferred

/-- **The three queues of a session are one mailbox.** The main loop takes its first command, a wait picks the first sync
response out of it, and a command that a wait retains stays where it is. -/
theorem session_is_a_mailbox {σ : RecordedSession} (h : RecordedSession.machine.Reached (fun _ _ => True) σ)
    (hok : σ.WaitsOk) : ∃ messages, Mailbox.Run CommandReading.isSyncResponse (.start messages) σ.mailbox :=
  (commandInv_of_reached h).mailbox hok

/-- in the main loop, the first command can be executed -/
theorem exec_next {σ : RecordedSession} {command : SessionCommand} {rest : List SessionCommand}
    (hidle : σ.worker.task = .idle) (hpending : σ.worker.pending = command :: rest) (remote : SessionWorker) :
    ∃ σ', σ.exec (.worker .command remote) = some σ' ∧ σ'.executed = σ.executed ++ [command] ∧
      σ'.worker.pending = rest := by
  have hqueue : σ.worker.queue = command :: rest :=
    (pending_of_closed (congrArg Task.retained hidle)).symm.trans hpending
  obtain ⟨w, hnext, hrest⟩ := nextCommand_of_queue hqueue
  have hexecutes : σ.worker.executes .command = [command] := by simp only [SessionWorker.executes, hidle, hnext]
  obtain ⟨me', hmove, hafter⟩ : ∃ me', σ.worker.exec remote .command = some (me', remote) ∧ me'.pending = rest := by
    cases command with
    | sendFrame frame =>
      obtain ⟨htask, hdeferred, hcommands⟩ := handleOutboundFrame_queue w frame
      refine ⟨w.handleOutboundFrame frame, by simp only [SessionWorker.exec, hidle, hnext], ?_⟩
      rw [pending_of_closed htask, SessionWorker.queue, hdeferred, hcommands]
      exact hrest
    | disconnect =>
      exact ⟨{ w with task := .ended none }, by simp only [SessionWorker.exec, hidle, hnext], hrest⟩
  refine ⟨σ.after [] (σ.worker.executes .command) (σ.worker.returns .command) me', ?_, ?_, hafter⟩
  · rw [RecordedSession.exec, hmove]
    rfl
  · rw [hexecutes]
    rfl

/-- **Waiting for a sync response neither loses nor reorders commands.** As long as each wait has returned `Ok`, each has
returned the first sync response of the deferred commands and the channel; no sync response is deferred; what the main loop
has executed and what is pending are, apart from sync responses, what was enqueued, once each and in that order, so that
with nothing pending everything has been executed; and in the main loop the first pending command can be executed. -/
theorem waiting_keeps_commands {σ : RecordedSession} (h : RecordedSession.machine.Reached (fun _ _ => True) σ)
    (hok : σ.WaitsOk) :
    (∀ call ∈ σ.calls, ∃ response, call.result = .ok response ∧ firstSyncResponse call.queue = some response) ∧
    (∀ c ∈ σ.worker.deferredCommands, c.reading.syncResponse = none) ∧
    otherReadings σ.executed ++ otherReadings σ.worker.pending = otherReadings σ.enqueued ∧
    (σ.worker.pending = [] → otherReadings σ.executed = otherReadings σ.enqueued) ∧
    ∀ command rest, σ.worker.task = .idle → σ.worker.pending = command :: rest →
      ∀ remote, ∃ σ', σ.exec (.worker .command remote) = some σ' ∧ σ'.executed = σ.executed ++ [command] ∧
        σ'.worker.pending = rest := by
  have hI := commandInv_of_reached h
  obtain ⟨messages, hrun⟩ := session_is_a_mailbox h hok
  refine ⟨?_, hI.deferred, hrun.accounted.inOrder, ?_, ?_⟩
  · intro call hcall
    obtain ⟨response, hresult⟩ := hok call hcall
    exact ⟨response, hresult, hI.calls call hcall response hresult⟩
  · intro hpending
    exact hrun.taken_of_empty (congrArg readings hpending)
  · intro command rest hidle hpending remote
    exact exec_next hidle hpending remote

/-- a session that has ended executes nothing more -/
theorem exec_ended {σ σ' : RecordedSession} {move : SessionMove} {error : Option String}
    (hended : σ.worker.task = .ended error) (h : σ.exec move = some σ') :
    σ'.worker.task = .ended error ∧ σ'.executed = σ.executed ∧ σ'.calls = σ.calls := by
  cases move with
  | remote opened =>
    cases h
    exact ⟨hended, rfl, rfl⟩
  | worker move remote =>
    obtain ⟨⟨me', remote'⟩, hmove, rfl⟩ := Option.map_eq_some_iff.1 h
    cases move with
    | push command =>
      cases hmove
      exact ⟨hended, List.append_nil _, List.append_nil _⟩
    | eof =>
      cases hremote : remote.task with
      | _ =>
        simp only [SessionWorker.exec, hended, hremote] at hmove
        cases hmove
    | command | accept | read | closed =>
      simp only [SessionWorker.exec, hended] at hmove
      cases hmove

instance (σ : RecordedSession) : Decidable σ.WaitsOk :=
  decidable_of_iff (∀ call ∈ σ.calls, call.result.toOption.isSome = true) <| by
    refine forall₂_congr fun call _ => ?_
    cases call.result <;> simp [Except.toOption]

end Deferred

section Witness

open Sample

/-- the command of the engine's `RequestBlocks` -/
def requestNext : SessionCommand := .sendFrame (NetworkMessage.syncRequest ⟨1, 64⟩).toBytes

/-- the answer of the engine to a sync request beyond its head -/
def respondEmpty : SessionCommand := .sendFrame (NetworkMessage.syncResponse ⟨[], false, none⟩).toBytes

/-- the other side, with one substream opened on which these packets have not been read -/
def requesting (packets : List Packet) : SessionWorker :=
  { SessionWorker.start 1024 peer with opened := [⟨packets, []⟩] }

/-- a sync request comes in, and the engine sends a request of its own before the response -/
def askedMeanwhile : List SessionMove :=
  [.worker .accept (requesting []), .worker .read (requesting [.multistream]),
    .worker .read (requesting [.protocol .sync]),
    .worker .read (requesting [.payload (Request.sync ⟨1, 64⟩).payload]),
    .worker (.push requestNext) (requesting []), .worker (.push respondEmpty) (requesting []),
    .worker .command (requesting []), .worker .command (requesting []), .worker .command (requesting [])]

def retainedOne : RecordedSession :=
  (RecordedSession.machine.replay (fun _ _ => True) askedMeanwhile (.start (.start 1024 peer))).get (by decide +kernel)

theorem retainedOne_reached : RecordedSession.machine.Reached (fun _ _ => True) retainedOne :=
  Machine.Reached.of_replay (.start ⟨.start 1024 peer, .inl rfl, fun _ h => (nomatch h), rfl⟩) (Option.some_get _).symm

/-- the wait has returned, and the request that it retained has been executed -/
theorem waiting_keeps_commands_of_served :
    retainedOne.calls.length = 1 ∧ retainedOne.executed.length = 1 ∧
      otherReadings retainedOne.executed ++ otherReadings retainedOne.worker.pending = otherReadings retainedOne.enqueued :=
  ⟨by decide +kernel, by decide +kernel, (waiting_keeps_commands retainedOne_reached (by decide +kernel)).2.2.1⟩

def refuse : SessionCommand := .sendFrame (NetworkMessage.announceResponse ⟨true⟩).toBytes

/-- a frame that the main loop does not send, and a request behind it -/
def unroutable : SessionWorker := { SessionWorker.start 1024 peer with commands := [refuse, requestNext] }

theorem reading_refuse : refuse.reading = .message (.announceResponse ⟨true⟩) := reading_toBytes trivial

theorem reading_requestNext : requestNext.reading = .message (.syncRequest ⟨1, 64⟩) := reading_toBytes trivial

/-- the error of `handle_outbound_frame` -/
def noRoute : String := "outbound response routing is not implemented for session commands"

def gaveUp : SessionWorker := SessionWorker.fail { unroutable with commands := [requestNext] } noRoute

theorem unroutable_exec (remote : SessionWorker) : unroutable.exec remote .command = some (gaveUp, remote) := by
  have hframe : NetworkMessage.fromBytes (NetworkMessage.announceResponse ⟨true⟩).toBytes =
      .ok (.announceResponse ⟨true⟩) := by
    have hround := fromBytes_toBytes_message (m := .announceResponse ⟨true⟩) trivial []
    rwa [List.append_nil] at hround
  simp only [SessionWorker.exec, unroutable, SessionWorker.start, SessionWorker.nextCommand, refuse,
    SessionWorker.handleOutboundFrame, hframe]
  rfl

/-- an announce response ends the session with an error, and whatever happens next, the request behind it is not executed -/
theorem executed_until_a_failure :
    ∃ σ : RecordedSession, RecordedSession.machine.Reached (fun _ _ => True) σ ∧ σ.WaitsOk ∧
      otherReadings σ.enqueued = [.message (.announceResponse ⟨true⟩), .message (.syncRequest ⟨1, 64⟩)] ∧
      ∀ moves σ', RecordedSession.machine.replay (fun _ _ => True) moves σ = some σ' →
        σ'.WaitsOk ∧ otherReadings σ'.executed = [.message (.announceResponse ⟨true⟩)] := by
  have hstart : RecordedSession.machine.Reached (fun _ _ => True) (.start unroutable) :=
    .start ⟨unroutable, .inl rfl, fun _ h => (nomatch h), rfl⟩
  have hmove : (RecordedSession.start unroutable).worker.exec (requesting []) .command = some (gaveUp, requesting []) :=
    unroutable_exec (requesting [])
  have hexec : RecordedSession.machine.exec (.start unroutable) (.worker .command (requesting [])) =
      some ((RecordedSession.start unroutable).after [] [refuse] [] gaveUp) := by
    have hmachine : RecordedSession.machine.exec = RecordedSession.exec := rfl
    rw [hmachine, RecordedSession.exec, hmove]
    rfl
  refine ⟨_, hstart.step trivial hexec, fun _ h => (nomatch h), ?_, ?_⟩
  · have hreadings : readings [refuse, requestNext] =
        [.message (.announceResponse ⟨true⟩), .message (.syncRequest ⟨1, 64⟩)] := by
      rw [readings_cons, readings_cons, reading_refuse, reading_requestNext]
      rfl
    exact congrArg (Mailbox.others _) hreadings
  · intro moves σ' hmoves
    have hexecuted : readings [refuse] = [.message (.announceResponse ⟨true⟩)] := by
      rw [readings_cons, reading_refuse]
      rfl
    obtain ⟨-, hsame, hcalls⟩ := Machine.replay_invariant
      (I := fun σ => σ.worker.task = .ended (some noRoute) ∧ σ.executed = [refuse] ∧ σ.calls = [])
      (fun σ move σ' hI _ hmove => by
        obtain ⟨hended, hexecuted, hcalls⟩ := exec_ended hI.1 hmove
        exact ⟨hended, hexecuted.trans hI.2.1, hcalls.trans hI.2.2⟩)
      ⟨rfl, rfl, rfl⟩ hmoves
    refine ⟨?_, ?_⟩
    · intro call hcall
      rw [hcalls] at hcall
      cases hcall
    · rw [otherReadings, hsame, hexecuted]
      rfl

end Witness

end RustProof
