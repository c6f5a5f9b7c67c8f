/-
Two established sessions of erp-runtime, one at each end of a connection (`run_established_session` of
erp-runtime/src/network/session.rs).

A session worker is one task. In its main loop it takes a command or an inbound substream. A command that is a request
opens a substream, and the worker waits on it for the other side's multistream header, its selection of the protocol and
its response (`Task.dial`). An inbound substream is served from header to response (`Task.listen`); for a sync request the
response comes from the engine as a command (`Task.serveSync`), and other commands are put aside. While a worker waits for
bytes it takes in further inbound substreams but serves none.

Substreams are reliable and in order, and are modelled frame by frame. Both workers support both protocols; identify,
node hello and ping substreams are not opened between two established sessions of erp-runtime and are left out. Command
channels are unbounded, and the network manager may send any command at any time.

`exec_moved` is all that a move of a worker can do.
-/
import RustProof.Lib.Machine
import RustProof.Runtime.Wake

namespace RustProof

/-! ## Substreams -/

/-- the protocols a session opens substreams for -/
inductive Protocol where
  | announce
  | sync
deriving DecidableEq, Repr

/-- one length-prefixed frame on a substream -/
inductive Packet where
  /-- the line `/multistream/1.0.0` -/
  | multistream
  | protocol (protocol : Protocol)
  /-- the line `na` -/
  | notAvailable
  | payload (bytes : List UInt8)

structure Substream where
  toListener : List Packet
  toDialer : List Packet

/-- put a packet, if there is one, behind the others for the opener -/
def writeToDialer (streams : List Substream) (i : ℕ) (packet : Option Packet) : List Substream :=
  streams.modify i fun s => { s with toDialer := s.toDialer ++ packet.toList }

def writeToListener (streams : List Substream) (i : ℕ) (packet : Option Packet) : List Substream :=
  streams.modify i fun s => { s with toListener := s.toListener ++ packet.toList }

/-- take the first packet for the opener -/
def readAsDialer (streams : List Substream) (i : ℕ) : Option (Packet × List Substream) :=
  match streams[i]? with
  | some ⟨toListener, packet :: rest⟩ => some (packet, streams.set i ⟨toListener, rest⟩)
  | _ => none

def readAsListener (streams : List Substream) (i : ℕ) : Option (Packet × List Substream) :=
  match streams[i]? with
  | some ⟨packet :: rest, toDialer⟩ => some (packet, streams.set i ⟨rest, toDialer⟩)
  | _ => none

theorem length_writeToDialer (streams : List Substream) (i : ℕ) (packet : Option Packet) :
    (writeToDialer streams i packet).length = streams.length := List.length_modify _ _ _

theorem length_writeToListener (streams : List Substream) (i : ℕ) (packet : Option Packet) :
    (writeToListener streams i packet).length = streams.length := List.length_modify _ _ _

theorem getElem?_writeToDialer_ne (streams : List Substream) {i j : ℕ} (h : j ≠ i) (packet : Option Packet) :
    (writeToDialer streams i packet)[j]? = streams[j]? := List.getElem?_modify_ne _ _ h.symm

theorem getElem?_writeToDialer {streams : List Substream} {i : ℕ} {s : Substream} (h : streams[i]? = some s)
    (packet : Option Packet) :
    (writeToDialer streams i packet)[i]? = some ⟨s.toListener, s.toDialer ++ packet.toList⟩ := by
  rw [writeToDialer, List.getElem?_modify_eq, h]
  rfl

theorem getElem?_writeToListener {streams : List Substream} {i : ℕ} {s : Substream} (h : streams[i]? = some s)
    (packet : Option Packet) :
    (writeToListener streams i packet)[i]? = some ⟨s.toListener ++ packet.toList, s.toDialer⟩ := by
  rw [writeToListener, List.getElem?_modify_eq, h]
  rfl

theorem readAsDialer_eq_some {streams rest : List Substream} {i : ℕ} {packet : Packet}
    (h : readAsDialer streams i = some (packet, rest)) :
    ∃ toListener toDialer, streams[i]? = some ⟨toListener, packet :: toDialer⟩ ∧
      rest = streams.set i ⟨toListener, toDialer⟩ := by
  unfold readAsDialer at h
  split at h
  · rename_i toListener p toDialer hs
    cases h
    exact ⟨toListener, toDialer, hs, rfl⟩
  · cases h

theorem readAsListener_eq_some {streams rest : List Substream} {i : ℕ} {packet : Packet}
    (h : readAsListener streams i = some (packet, rest)) :
    ∃ toListener toDialer, streams[i]? = some ⟨packet :: toListener, toDialer⟩ ∧
      rest = streams.set i ⟨toListener, toDialer⟩ := by
  unfold readAsListener at h
  split at h
  · rename_i p toListener toDialer hs
    cases h
    exact ⟨toListener, toDialer, hs, rfl⟩
  · cases h

theorem getElem?_set_of_some {streams : List Substream} {i : ℕ} {s : Substream} (h : streams[i]? = some s)
    (s' : Substream) : (streams.set i s')[i]? = some s' :=
  List.getElem?_set_self (List.getElem?_eq_some_iff.1 h).1

section Session

variable [Crypto]

/-! ## Requests and their frames -/

/-- a request that goes out on a substream of its own -/
inductive Request where
  | announce (request : AnnounceRequest)
  | sync (request : SyncRequest)

def Request.protocol : Request → Protocol
  | .announce _ => .announce
  | .sync _ => .sync

/-- the payload of `encode_announce_request` and `encode_sync_request` -/
def Request.payload : Request → List UInt8
  | .announce request => request.kind.toPostcard
  | .sync request => putU64 request.fromHeight ++ putU64 request.toHeight

/-- `decode_announce_request` and `decode_sync_request` -/
def Protocol.decodeRequest (bytes : List UInt8) : Protocol → Option NetworkMessage
  | .announce => (takeAnnounceKind bytes.length bytes).map fun p => .announceRequest ⟨p.1⟩
  | .sync =>
    (takeU64 bytes).bind fun p => (takeU64 p.2).map fun q => .syncRequest ⟨p.1, q.1⟩

/-- `decode_announce_response` and `decode_sync_response` -/
def Protocol.decodeResponse (bytes : List UInt8) : Protocol → Option NetworkMessage
  | .announce => (takeBool bytes).map fun p => .announceResponse ⟨p.1⟩
  | .sync =>
    (takeVec (takeBlock bytes.length) bytes).bind fun p => (takeBool p.2).bind fun q =>
      (takeOption takeU64 q.2).map fun r => .syncResponse ⟨p.1, q.1, r.1⟩

/-! ## Workers -/

inductive SessionCommand where
  | sendFrame (frame : Frame)
  | disconnect

/-- what the opener of a substream waits for -/
inductive DialStage where
  | header
  | selection
  | response

/-- what the other side waits for -/
inductive ListenStage where
  | header
  | protocol
  | request (protocol : Protocol)

inductive Task where
  /-- the main loop -/
  | idle
  /-- `handle_outbound_frame` on a substream of its own -/
  | dial (request : Request) (stage : DialStage) (stream : ℕ)
  /-- `handle_inbound_substream` on a substream of the other worker -/
  | listen (stage : ListenStage) (stream : ℕ)
  /-- `wait_for_sync_response` -/
  | serveSync (stream : ℕ) (retainedCommands : List SessionCommand)
  /-- `run_established_session` has returned -/
  | ended (error : Option String)

structure SessionWorker where
  maxFrameLen : ℕ
  remoteNodePeer : PeerId
  task : Task
  /-- `command_rx` -/
  commands : List SessionCommand
  deferredCommands : List SessionCommand
  /-- the substreams this worker has opened, in order -/
  opened : List Substream
  /-- how many of the other worker's substreams this one has accepted -/
  accepted : ℕ
  /-- sent to the engine -/
  events : List RuntimeEvent

namespace SessionWorker

/-- a worker as it enters `run_established_session` -/
def start (maxFrameLen : ℕ) (remoteNodePeer : PeerId) : SessionWorker :=
  { maxFrameLen := maxFrameLen
    remoteNodePeer := remoteNodePeer
    task := .idle
    commands := []
    deferredCommands := []
    opened := []
    accepted := 0
    events := [] }

def fail (w : SessionWorker) (error : String) : SessionWorker := { w with task := .ended (some error) }

/-- the deferred commands come first -/
def nextCommand (w : SessionWorker) : Option (SessionCommand × SessionWorker) :=
  match w.deferredCommands, w.commands with
  | command :: rest, _ => some (command, { w with deferredCommands := rest })
  | [], command :: rest => some (command, { w with commands := rest })
  | [], [] => none

/-! ### Outbound -/

/-- a new substream with the multistream header on it -/
def openSubstream (w : SessionWorker) (request : Request) : SessionWorker :=
  { w with
    task := .dial request .header w.opened.length
    opened := w.opened ++ [⟨[.multistream], []⟩] }

def handleOutboundFrame (w : SessionWorker) (frame : Frame) : SessionWorker :=
  match NetworkMessage.fromBytes frame with
  | .error _ => w.fail "invalid outbound network frame"
  | .ok (.announceRequest request) => w.openSubstream (.announce request)
  | .ok (.syncRequest request) => w.openSubstream (.sync request)
  | .ok (.announceResponse _) => w.fail "outbound response routing is not implemented for session commands"
  | .ok (.syncResponse _) => w.fail "outbound response routing is not implemented for session commands"

/-- the worker reads a packet on its own substream `i`; the next packet it writes, if any -/
def dialRead (w : SessionWorker) (request : Request) (i : ℕ) : DialStage → Packet → SessionWorker × Option Packet
  | .header, .multistream =>
    ({ w with task := .dial request .selection i }, some (.protocol request.protocol))
  | .header, _ => (w.fail "remote did not acknowledge multistream v1", none)
  | .selection, .protocol selected =>
    if selected = request.protocol then
      if request.payload.length > w.maxFrameLen then
        (w.fail "payload exceeds configured frame length limit", none)
      else ({ w with task := .dial request .response i }, some (.payload request.payload))
    else (w.fail "remote acknowledged an unexpected protocol", none)
  | .selection, .notAvailable => (w.fail "remote rejected requested protocol", none)
  | .selection, _ => (w.fail "remote acknowledged an unexpected protocol", none)
  | .response, .payload bytes =>
    if bytes.length > w.maxFrameLen then (w.fail "frame length exceeds configured maximum", none)
    else
      match request.protocol.decodeResponse bytes with
      | some response =>
        ({ w with task := .idle, events := w.events ++ [.frameReceived w.remoteNodePeer response.toBytes] }, none)
      | none => (w.fail "failed to decode postcard payload", none)
  | .response, _ => (w.fail "failed to decode postcard payload", none)

/-! ### Inbound -/

/-- the worker reads a packet on the other's substream `i`; the next packet it writes, if any -/
def listenRead (w : SessionWorker) (i : ℕ) : ListenStage → Packet → SessionWorker × Option Packet
  | .header, .multistream => ({ w with task := .listen .protocol i }, some .multistream)
  | .header, _ => (w.fail "remote did not initiate multistream v1 negotiation", none)
  | .protocol, .protocol requested => ({ w with task := .listen (.request requested) i }, some (.protocol requested))
  | .protocol, .multistream => ({ w with task := .idle }, some .notAvailable)
  | .protocol, .notAvailable => ({ w with task := .idle }, some .notAvailable)
  | .protocol, .payload _ => (w.fail "multistream protocol line is not newline terminated", none)
  | .request protocol, .payload bytes =>
    if bytes.length > w.maxFrameLen then (w.fail "frame length exceeds configured maximum", none)
    else
      match protocol.decodeRequest bytes with
      | none => (w.fail "failed to decode postcard payload", none)
      | some request =>
        let w := { w with events := w.events ++ [RuntimeEvent.frameReceived w.remoteNodePeer request.toBytes] }
        match protocol with
        | .announce =>
          if (putBool true).length > w.maxFrameLen then (w.fail "payload exceeds configured frame length limit", none)
          else ({ w with task := .idle }, some (.payload (putBool true)))
        | .sync => ({ w with task := .serveSync i [] }, none)
  | .request _, _ => (w.fail "failed to decode postcard payload", none)

/-- `restore_deferred_commands` -/
def restoreDeferredCommands (w : SessionWorker) (retainedCommands : List SessionCommand) : SessionWorker :=
  { w with deferredCommands := retainedCommands ++ w.deferredCommands }

/-- one turn of the loop of `wait_for_sync_response`; the response goes out when it comes -/
def waitForSyncResponse (w : SessionWorker) (i : ℕ) (retainedCommands : List SessionCommand) :
    SessionCommand → SessionWorker × Option Packet
  | .sendFrame frame =>
    match NetworkMessage.fromBytes frame with
    | .error _ => (w.fail "invalid runtime frame while waiting for sync response", none)
    | .ok (.syncResponse response) =>
      let w := w.restoreDeferredCommands retainedCommands
      if response.toPostcard.length > w.maxFrameLen then (w.fail "payload exceeds configured frame length limit", none)
      else ({ w with task := .idle }, some (.payload response.toPostcard))
    | .ok other => ({ w with task := .serveSync i (retainedCommands ++ [.sendFrame other.toBytes]) }, none)
  | .disconnect => (w.fail "session disconnected while waiting for sync response", none)

end SessionWorker

/-! ## The pair -/

/-- what a worker does next -/
inductive WorkerMove where
  /-- the network manager sends it a command -/
  | push (command : SessionCommand)
  /-- it takes its next command -/
  | command
  /-- `accept_substream` -/
  | accept
  /-- it reads what it waits for -/
  | read
  /-- its command channel is closed and empty -/
  | closed
  /-- the other side has ended the connection -/
  | eof

/-- the two workers after a move of the first, if it is possible -/
def SessionWorker.exec (me other : SessionWorker) : WorkerMove → Option (SessionWorker × SessionWorker)
  | .push command => some ({ me with commands := me.commands ++ [command] }, other)
  | .command =>
    match me.task, me.nextCommand with
    | .idle, some (.sendFrame frame, me) => some (me.handleOutboundFrame frame, other)
    | .idle, some (.disconnect, me) => some ({ me with task := .ended none }, other)
    | .serveSync i retained, some (command, me) =>
      let (me, packet) := me.waitForSyncResponse i retained command
      some (me, { other with opened := writeToDialer other.opened i packet })
    | _, _ => none
  | .accept =>
    match me.task, me.deferredCommands with
    | .idle, [] =>
      if me.accepted < other.opened.length then
        some ({ me with task := .listen .header me.accepted, accepted := me.accepted + 1 }, other)
      else none
    | _, _ => none
  | .read =>
    match me.task with
    | .dial request stage i =>
      (readAsDialer me.opened i).map fun (packet, opened) =>
        let (me, reply) := me.dialRead request i stage packet
        ({ me with opened := writeToListener opened i reply }, other)
    | .listen stage i =>
      (readAsListener other.opened i).map fun (packet, opened) =>
        let (me, reply) := me.listenRead i stage packet
        (me, { other with opened := writeToDialer opened i reply })
    | _ => none
  | .closed =>
    match me.task, me.nextCommand with
    | .idle, none => some ({ me with task := .ended none }, other)
    | .serveSync _ _, none => some (me.fail "session command channel closed while waiting for sync response", other)
    | _, _ => none
  | .eof =>
    match other.task, me.task, me.deferredCommands with
    | .ended _, .idle, [] => some ({ me with task := .ended none }, other)
    | .ended _, .dial _ _ _, _ => some (me.fail "yamux connection closed", other)
    | .ended _, .listen _ _, _ => some (me.fail "yamux connection closed", other)
    | _, _, _ => none

structure Pair where
  left : SessionWorker
  right : SessionWorker

inductive Side where
  | left
  | right
deriving DecidableEq, Repr

namespace Pair

def exec (σ : Pair) : Side → WorkerMove → Option Pair
  | .left, move => (σ.left.exec σ.right move).map fun p => ⟨p.1, p.2⟩
  | .right, move => (σ.right.exec σ.left move).map fun p => ⟨p.2, p.1⟩

/-- two sessions, from the moment both are established -/
def machine : Machine Pair (Side × WorkerMove) where
  init σ := ∃ leftLen rightLen leftPeer rightPeer, σ = ⟨.start leftLen rightPeer, .start rightLen leftPeer⟩
  exec σ move := σ.exec move.1 move.2

end Pair

/-! ## What a worker does -/

/-- a command changes neither the task nor the substreams by being taken -/
theorem nextCommand_same {w w' : SessionWorker} {command : SessionCommand} (h : w.nextCommand = some (command, w')) :
    w'.task = w.task ∧ w'.opened = w.opened ∧ w'.accepted = w.accepted := by
  unfold SessionWorker.nextCommand at h
  split at h
  · cases h
    exact ⟨rfl, rfl, rfl⟩
  · cases h
    exact ⟨rfl, rfl, rfl⟩
  · cases h

/-- the dialer goes on with the request, or is back in its main loop, or ends -/
theorem dialRead_cases {w w' : SessionWorker} {request : Request} {i : ℕ} {stage : DialStage} {packet : Packet}
    {reply : Option Packet} (h : w.dialRead request i stage packet = (w', reply)) :
    w'.opened = w.opened ∧ w'.accepted = w.accepted ∧
      ((∃ stage', w'.task = .dial request stage' i) ∨ w'.task = .idle ∨ ∃ error, w'.task = .ended error) := by
  unfold SessionWorker.dialRead at h
  split at h
  · cases h
    exact ⟨rfl, rfl, .inl ⟨_, rfl⟩⟩
  · cases h
    exact ⟨rfl, rfl, .inr (.inr ⟨_, rfl⟩)⟩
  · split_ifs at h
    · cases h
      exact ⟨rfl, rfl, .inr (.inr ⟨_, rfl⟩)⟩
    · cases h
      exact ⟨rfl, rfl, .inl ⟨_, rfl⟩⟩
    · cases h
      exact ⟨rfl, rfl, .inr (.inr ⟨_, rfl⟩)⟩
  · cases h
    exact ⟨rfl, rfl, .inr (.inr ⟨_, rfl⟩)⟩
  · cases h
    exact ⟨rfl, rfl, .inr (.inr ⟨_, rfl⟩)⟩
  · split_ifs at h
    · cases h
      exact ⟨rfl, rfl, .inr (.inr ⟨_, rfl⟩)⟩
    · split at h
      · cases h
        exact ⟨rfl, rfl, .inr (.inl rfl)⟩
      · cases h
        exact ⟨rfl, rfl, .inr (.inr ⟨_, rfl⟩)⟩
  · cases h
    exact ⟨rfl, rfl, .inr (.inr ⟨_, rfl⟩)⟩

/-- the substream of the other worker that is being served -/
def Task.serves : Task → Option ℕ
  | .listen _ i => some i
  | .serveSync i _ => some i
  | _ => none

/-- a task that is not a request, and serves nothing but substream `i` -/
def Task.Inbound (task : Task) (i : ℕ) : Prop :=
  (∀ request stage j, task ≠ .dial request stage j) ∧ ∀ k, task.serves = some k → k = i

theorem inbound_idle (i : ℕ) : Task.Inbound .idle i := ⟨fun _ _ _ h => (nomatch h), fun _ h => nomatch h⟩

theorem inbound_ended (error : Option String) (i : ℕ) : Task.Inbound (.ended error) i :=
  ⟨fun _ _ _ h => (nomatch h), fun _ h => nomatch h⟩

theorem inbound_listen (stage : ListenStage) (i : ℕ) : Task.Inbound (.listen stage i) i :=
  ⟨fun _ _ _ h => (nomatch h), fun _ h => (Option.some.inj h).symm⟩

theorem inbound_serveSync (i : ℕ) (retained : List SessionCommand) : Task.Inbound (.serveSync i retained) i :=
  ⟨fun _ _ _ h => (nomatch h), fun _ h => (Option.some.inj h).symm⟩

/-- what reading a request can lead to: a response, a question to the engine, or the end of the session -/
theorem listenRead_request {w w' : SessionWorker} {i : ℕ} {protocol : Protocol} {bytes : List UInt8}
    {reply : Option Packet} (h : w.listenRead i (.request protocol) (.payload bytes) = (w', reply)) :
    w'.opened = w.opened ∧ w'.accepted = w.accepted ∧
      ((∃ error, w'.task = .ended error) ∨ w'.task = .serveSync i [] ∧ reply = none ∨
        w'.task = .idle ∧ ∃ packet, reply = some packet) := by
  simp only [SessionWorker.listenRead] at h
  split at h
  · cases h
    exact ⟨rfl, rfl, .inl ⟨_, rfl⟩⟩
  · split at h
    · cases h
      exact ⟨rfl, rfl, .inl ⟨_, rfl⟩⟩
    · split at h
      · split at h
        · cases h
          exact ⟨rfl, rfl, .inl ⟨_, rfl⟩⟩
        · cases h
          exact ⟨rfl, rfl, .inr (.inr ⟨rfl, _, rfl⟩)⟩
      · cases h
        exact ⟨rfl, rfl, .inr (.inl ⟨rfl, rfl⟩)⟩

theorem listenRead_inbound {w w' : SessionWorker} {i : ℕ} {stage : ListenStage} {packet : Packet}
    {reply : Option Packet} (h : w.listenRead i stage packet = (w', reply)) :
    w'.opened = w.opened ∧ w'.accepted = w.accepted ∧ w'.task.Inbound i := by
  match stage, packet with
  | .header, .multistream =>
    cases h
    exact ⟨rfl, rfl, inbound_listen _ i⟩
  | .header, .protocol _ | .header, .notAvailable | .header, .payload _ =>
    cases h
    exact ⟨rfl, rfl, inbound_ended _ i⟩
  | .protocol, .protocol _ =>
    cases h
    exact ⟨rfl, rfl, inbound_listen _ i⟩
  | .protocol, .multistream | .protocol, .notAvailable =>
    cases h
    exact ⟨rfl, rfl, inbound_idle i⟩
  | .protocol, .payload _ =>
    cases h
    exact ⟨rfl, rfl, inbound_ended _ i⟩
  | .request protocol, .payload bytes =>
    obtain ⟨hopened, haccepted, ⟨error, htask⟩ | ⟨htask, -⟩ | ⟨htask, -⟩⟩ := listenRead_request h
    · exact ⟨hopened, haccepted, htask ▸ inbound_ended error i⟩
    · exact ⟨hopened, haccepted, htask ▸ inbound_serveSync i []⟩
    · exact ⟨hopened, haccepted, htask ▸ inbound_idle i⟩
  | .request _, .multistream | .request _, .protocol _ | .request _, .notAvailable =>
    cases h
    exact ⟨rfl, rfl, inbound_ended _ i⟩

/-- waiting for the engine: the session ends, or the command is put aside, or the response goes out -/
theorem waitForSyncResponse_cases {w w' : SessionWorker} {i : ℕ} {retained : List SessionCommand}
    {command : SessionCommand} {reply : Option Packet}
    (h : w.waitForSyncResponse i retained command = (w', reply)) :
    w'.opened = w.opened ∧ w'.accepted = w.accepted ∧
      ((∃ error, w'.task = .ended error) ∨ (∃ retained', w'.task = .serveSync i retained') ∧ reply = none ∨
        w'.task = .idle ∧ ∃ packet, reply = some packet) := by
  unfold SessionWorker.waitForSyncResponse at h
  split at h
  · split at h
    · cases h
      exact ⟨rfl, rfl, .inl ⟨_, rfl⟩⟩
    · dsimp only at h
      split_ifs at h
      · cases h
        exact ⟨rfl, rfl, .inl ⟨_, rfl⟩⟩
      · cases h
        exact ⟨rfl, rfl, .inr (.inr ⟨rfl, _, rfl⟩)⟩
    · cases h
      exact ⟨rfl, rfl, .inr (.inl ⟨⟨_, rfl⟩, rfl⟩)⟩
  · cases h
    exact ⟨rfl, rfl, .inl ⟨_, rfl⟩⟩

theorem waitForSyncResponse_inbound {w w' : SessionWorker} {i : ℕ} {retained : List SessionCommand}
    {command : SessionCommand} {reply : Option Packet} (h : w.waitForSyncResponse i retained command = (w', reply)) :
    w'.opened = w.opened ∧ w'.accepted = w.accepted ∧ w'.task.Inbound i := by
  obtain ⟨hopened, haccepted, ⟨error, htask⟩ | ⟨⟨retained', htask⟩, -⟩ | ⟨htask, -⟩⟩ := waitForSyncResponse_cases h
  · exact ⟨hopened, haccepted, htask ▸ inbound_ended error i⟩
  · exact ⟨hopened, haccepted, htask ▸ inbound_serveSync i retained'⟩
  · exact ⟨hopened, haccepted, htask ▸ inbound_idle i⟩

/-- a response is the last packet a dialer reads -/
theorem dialRead_response {w w' : SessionWorker} {request : Request} {i : ℕ} {packet : Packet} {reply : Option Packet}
    (h : w.dialRead request i .response packet = (w', reply)) (request' : Request) (stage : DialStage) (j : ℕ) :
    w'.task ≠ .dial request' stage j := by
  intro htask
  match packet with
  | .payload bytes =>
    simp only [SessionWorker.dialRead] at h
    split_ifs at h
    · cases h
      cases htask
    · split at h
      · cases h
        cases htask
      · cases h
        cases htask
  | .multistream | .protocol _ | .notAvailable =>
    cases h
    cases htask

/-- in the main loop, and the next command is a request -/
def SessionWorker.asks (w : SessionWorker) : Bool :=
  match w.task, w.nextCommand with
  | .idle, some (.sendFrame frame, _) =>
    match NetworkMessage.fromBytes frame with
    | .ok (.announceRequest _) => true
    | .ok (.syncRequest _) => true
    | _ => false
  | _, _ => false

/-- what a move can do -/
inductive Moved (me other : SessionWorker) (move : WorkerMove) : SessionWorker → SessionWorker → Prop
  | stays {me' : SessionWorker} (task : me'.task = me.task) (opened : me'.opened = me.opened)
      (accepted : me'.accepted = me.accepted) : Moved me other move me' other
  | ends {me' : SessionWorker} (error : Option String) (task : me'.task = .ended error)
      (opened : me'.opened = me.opened) (accepted : me'.accepted = me.accepted) : Moved me other move me' other
  /-- a request is started -/
  | opens {me₁ : SessionWorker} (request : Request) (command : move = .command) (asks : me.asks = true)
      (idle : me.task = .idle) (task : me₁.task = me.task) (opened : me₁.opened = me.opened)
      (accepted : me₁.accepted = me.accepted) : Moved me other move (me₁.openSubstream request) other
  | accepts (idle : me.task = .idle) (more : me.accepted < other.opened.length) :
      Moved me other move { me with task := .listen .header me.accepted, accepted := me.accepted + 1 } other
  | dials {request : Request} {stage : DialStage} {i : ℕ} {packet : Packet} {opened : List Substream}
      {me₁ : SessionWorker} {reply : Option Packet} (task : me.task = .dial request stage i)
      (read : readAsDialer me.opened i = some (packet, opened))
      (dial : me.dialRead request i stage packet = (me₁, reply)) :
      Moved me other move { me₁ with opened := writeToListener opened i reply } other
  | listens {stage : ListenStage} {i : ℕ} {packet : Packet} {opened : List Substream} {me₁ : SessionWorker}
      {reply : Option Packet} (task : me.task = .listen stage i)
      (read : readAsListener other.opened i = some (packet, opened))
      (listen : me.listenRead i stage packet = (me₁, reply)) :
      Moved me other move me₁ { other with opened := writeToDialer opened i reply }
  | serves {i : ℕ} {retained : List SessionCommand} {command : SessionCommand} {me₁ me₂ : SessionWorker}
      {reply : Option Packet} (task : me.task = .serveSync i retained) (task₁ : me₁.task = me.task)
      (opened₁ : me₁.opened = me.opened) (accepted₁ : me₁.accepted = me.accepted)
      (wait : me₁.waitForSyncResponse i retained command = (me₂, reply)) :
      Moved me other move me₂ { other with opened := writeToDialer other.opened i reply }

/-- a frame from the main loop starts a request or ends the session -/
theorem moved_handleOutboundFrame {me me₁ : SessionWorker} (other : SessionWorker) {frame : Frame} (hidle : me.task = .idle)
    (hnext : me.nextCommand = some (.sendFrame frame, me₁)) :
    Moved me other .command (me₁.handleOutboundFrame frame) other := by
  obtain ⟨htask, hopened, haccepted⟩ := nextCommand_same hnext
  have hopen : ∀ request, me.asks = true → Moved me other .command (me₁.openSubstream request) other := by
    intro request hasks
    exact .opens request rfl hasks hidle htask hopened haccepted
  have hasks : me.asks = match NetworkMessage.fromBytes frame with
      | .ok (.announceRequest _) => true
      | .ok (.syncRequest _) => true
      | _ => false := by
    simp only [SessionWorker.asks, hidle, hnext]
  unfold SessionWorker.handleOutboundFrame
  split
  · exact .ends _ rfl hopened haccepted
  · rename_i request hframe
    exact hopen _ (by rw [hasks, hframe])
  · rename_i request hframe
    exact hopen _ (by rw [hasks, hframe])
  · exact .ends _ rfl hopened haccepted
  · exact .ends _ rfl hopened haccepted

theorem exec_moved {me me' other other' : SessionWorker} {move : WorkerMove}
    (h : me.exec other move = some (me', other')) : Moved me other move me' other' := by
  cases move with
  | push command =>
    cases h
    exact .stays rfl rfl rfl
  | command =>
    simp only [SessionWorker.exec] at h
    split at h
    · rename_i frame me₁ hidle hnext
      cases h
      exact moved_handleOutboundFrame other hidle hnext
    · rename_i me₁ hidle hnext
      cases h
      obtain ⟨htask, hopened, haccepted⟩ := nextCommand_same hnext
      exact .ends none rfl hopened haccepted
    · rename_i i retained command me₁ hserve hnext
      cases h
      obtain ⟨htask, hopened, haccepted⟩ := nextCommand_same hnext
      exact .serves hserve htask hopened haccepted (Prod.eta _).symm
    · cases h
  | accept =>
    simp only [SessionWorker.exec] at h
    split at h
    · rename_i hidle hdeferred
      split_ifs at h with hmore
      cases h
      exact .accepts hidle hmore
    · cases h
  | read =>
    simp only [SessionWorker.exec] at h
    split at h
    · rename_i request stage i htask
      obtain ⟨⟨packet, opened⟩, hread, heq⟩ := Option.map_eq_some_iff.1 h
      cases heq
      exact .dials htask hread (Prod.eta _).symm
    · rename_i stage i htask
      obtain ⟨⟨packet, opened⟩, hread, heq⟩ := Option.map_eq_some_iff.1 h
      cases heq
      exact .listens htask hread (Prod.eta _).symm
    · cases h
  | closed =>
    simp only [SessionWorker.exec] at h
    split at h
    · cases h
      exact .ends none rfl rfl rfl
    · cases h
      exact .ends _ rfl rfl rfl
    · cases h
  | eof =>
    simp only [SessionWorker.exec] at h
    split at h
    · cases h
      exact .ends none rfl rfl rfl
    · cases h
      exact .ends _ rfl rfl rfl
    · cases h
      exact .ends _ rfl rfl rfl
    · cases h

end Session

end RustProof
