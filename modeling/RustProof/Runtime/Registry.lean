/-
The network manager of erp-runtime and its peer registry (`erp-runtime/src/network/manager.rs`, `peer_registry.rs`).

A connection gets a slot of the registry and a worker with a command channel of its own; a slot is given again once its
session is closed. What the manager does for an accepted connection, a bootstrap dial, an event of a session or a command
is a function here, and an error it returns is returned by `NetworkManager::run`. Command channels are named by the worker
that reads them (`WorkerId`): slots are reused, workers are not.

`PeerRegistry.Consistent`: the map by node and the sessions agree. Every function that returns keeps it.
-/
import RustProof.Runtime.Replies
import RustProof.Runtime.Session

namespace RustProof

namespace Erp

/-! ## The registry -/

abbrev SessionId := ℕ

/-- the worker of the n-th session that was spawned, and its command channel -/
abbrev WorkerId := ℕ

structure SocketAddr where
  ip : U8Array 4
  port : UInt16
deriving DecidableEq

inductive SessionState where
  | tcpConnected
  | noiseReady
  | yamuxReady
  | identified
  | nodeReady
  | closing
deriving DecidableEq, Repr

structure PeerSession where
  id : SessionId
  isOutbound : Bool
  outboundAddr : Option SocketAddr
  nodePeerId : Option PeerId
  transportPeerId : List UInt8
  state : SessionState
  maxFrameLen : UInt32
  maxBlocksPerChunk : UInt16

structure PeerRegistry where
  sessions : List (Option PeerSession)
  byNodePeer : BTreeMap PeerId SessionId
  maxPeers : ℕ

/-- `io::ErrorKind`, as far as it is used -/
inductive ErrorKind where
  | invalidData
  | unexpectedEof
  | writeZero
  | other
deriving DecidableEq, Repr

structure IoError where
  kind : ErrorKind
  message : String
deriving DecidableEq, Repr

inductive RuntimeError where
  | config (message : String)
  | crypto (message : String)
  | networkError (error : IoError)
  | networkSend
deriving DecidableEq, Repr

namespace PeerRegistry

def new (maxPeers : ℕ) : PeerRegistry := ⟨[], .empty, maxPeers⟩

/-- the first free slot, else a new one as long as there are fewer than `max_peers` -/
def alloc (r : PeerRegistry) (transportPeerId : List UInt8) (isOutbound : Bool) (outboundAddr : Option SocketAddr) :
    Except RuntimeError (PeerRegistry × SessionId) :=
  let session (id : SessionId) : PeerSession :=
    ⟨id, isOutbound, outboundAddr, none, transportPeerId, .tcpConnected, 0, 0⟩
  match r.sessions.findIdx? Option.isNone with
  | some id => .ok ({ r with sessions := r.sessions.set id (some (session id)) }, id)
  | none =>
    if r.sessions.length ≥ r.maxPeers then .error (.config "peer registry is full")
    else .ok ({ r with sessions := r.sessions ++ [some (session r.sessions.length)] }, r.sessions.length)

def get (r : PeerRegistry) (id : SessionId) : Option PeerSession := r.sessions[id]?.join

/-- a session written through `get_mut` -/
def put (r : PeerRegistry) (id : SessionId) (session : PeerSession) : PeerRegistry :=
  { r with sessions := r.sessions.set id (some session) }

def registerNodePeer (r : PeerRegistry) (id : SessionId) (nodePeerId : PeerId) : Except RuntimeError PeerRegistry :=
  if (r.byNodePeer.get? nodePeerId).any fun existing => existing ≠ id then
    .error (.config "node peer is already registered to another session")
  else
    match r.get id with
    | none => .error (.config "unknown peer session")
    | some session =>
      .ok { r.put id { session with nodePeerId := some nodePeerId } with
        byNodePeer := r.byNodePeer.insert nodePeerId id }

def sessionForNode (r : PeerRegistry) (peer : PeerId) : Option SessionId := r.byNodePeer.get? peer

def readySessions (r : PeerRegistry) : List SessionId :=
  (List.range r.sessions.length).filter fun id => (r.get id).any fun session => session.state = .nodeReady

def outboundSessionCount (r : PeerRegistry) : ℕ := r.sessions.countP fun session => session.any PeerSession.isOutbound

def hasOutboundSessionFor (r : PeerRegistry) (address : SocketAddr) : Bool :=
  r.sessions.any fun session => session.any fun s => s.outboundAddr.any fun outboundAddr => outboundAddr = address

def remove (r : PeerRegistry) (id : SessionId) : PeerRegistry :=
  match r.get id with
  | none => r
  | some session =>
    { r with
      sessions := r.sessions.set id none
      byNodePeer :=
        match session.nodePeerId with
        | some nodePeerId => r.byNodePeer.remove nodePeerId
        | none => r.byNodePeer }

end PeerRegistry

/-! ## The manager -/

inductive MultiaddrLite where
  | ip4Tcp (addr : U8Array 4) (port : UInt16)
  | dns4Tcp (host : String) (port : UInt16)

structure BootstrapPeer where
  address : MultiaddrLite
  expectedTransportPeer : Option (List UInt8)

structure NetworkConfig where
  maxPeers : ℕ
  maxOutboundDials : ℕ
  bootstrapPeers : List BootstrapPeer

/-- `DEFAULT_MAX_PEERS` and `DEFAULT_MAX_OUTBOUND_DIALS` -/
def NetworkConfig.default : NetworkConfig := ⟨16, 4, []⟩

structure VerifiedPeer where
  nodePeerId : PeerId
  transportPeerId : List UInt8
  maxFrameLen : UInt32
  maxBlocksPerChunk : UInt16

inductive SessionEvent where
  | ready (sessionId : SessionId) (verifiedPeer : VerifiedPeer)
  | closed (sessionId : SessionId) (nodePeerId : Option PeerId)

/-- what is outside during a bootstrap attempt: which IPv4 address a DNS name has, and whether a dial succeeds -/
structure Network where
  lookup : String → UInt16 → Option SocketAddr
  connects : SocketAddr → Bool

/-- `resolve_bootstrap_addr` -/
def MultiaddrLite.resolve (network : Network) : MultiaddrLite → Option SocketAddr
  | .ip4Tcp addr port => some ⟨addr, port⟩
  | .dns4Tcp host port => network.lookup host port

structure NetworkManager where
  config : NetworkConfig
  peers : PeerRegistry
  sessionCommands : BTreeMap SessionId WorkerId
  /-- a variable of `run` -/
  bootstrapCursor : ℕ

namespace NetworkManager

def new (config : NetworkConfig) : NetworkManager := ⟨config, .new config.maxPeers, .empty, 0⟩

/-- `worker` is the one spawned here -/
def spawnSession (m : NetworkManager) (worker : WorkerId) (isOutbound : Bool) (outboundAddr : Option SocketAddr) :
    Except RuntimeError (NetworkManager × SessionId) :=
  match m.peers.alloc [] isOutbound outboundAddr with
  | .error e => .error e
  | .ok (peers, sessionId) =>
    .ok ({ m with peers := peers, sessionCommands := m.sessionCommands.insert sessionId worker }, sessionId)

/-- the address that is dialled, if nothing stands against it -/
def bootstrapAddress (m : NetworkManager) (network : Network) : Option SocketAddr :=
  if m.peers.outboundSessionCount ≥ m.config.maxOutboundDials then none
  else
    match m.config.bootstrapPeers[m.bootstrapCursor % m.config.bootstrapPeers.length]? with
    | none => none
    | some target =>
      match target.address.resolve network with
      | none => none
      | some address => if m.peers.hasOutboundSessionFor address then none else some address

/-- failures to resolve and to dial are logged only -/
def bootstrapOnce (m : NetworkManager) (worker : WorkerId) (network : Network) :
    Except RuntimeError (NetworkManager × Option SessionId) :=
  let cursor :=
    if m.peers.outboundSessionCount ≥ m.config.maxOutboundDials ∨ m.config.bootstrapPeers = [] then m.bootstrapCursor
    else min (m.bootstrapCursor + 1) (2 ^ 32 - 1)
  match m.bootstrapAddress network with
  | none => .ok ({ m with bootstrapCursor := cursor }, none)
  | some address =>
    if network.connects address then
      match m.spawnSession worker true (some address) with
      | .error e => .error e
      | .ok (m, sessionId) => .ok ({ m with bootstrapCursor := cursor }, some sessionId)
    else .ok ({ m with bootstrapCursor := cursor }, none)

section Events

variable [Crypto]

def handleSessionEvent (m : NetworkManager) : SessionEvent → Except RuntimeError (NetworkManager × List RuntimeEvent)
  | .ready sessionId verifiedPeer =>
    match m.peers.get sessionId with
    | none => .error (.config "session ready event referenced an unknown session")
    | some session =>
      let peers := m.peers.put sessionId { session with
        transportPeerId := verifiedPeer.transportPeerId
        maxFrameLen := verifiedPeer.maxFrameLen
        maxBlocksPerChunk := verifiedPeer.maxBlocksPerChunk
        state := .nodeReady }
      match peers.registerNodePeer sessionId verifiedPeer.nodePeerId with
      | .error e => .error e
      | .ok peers => .ok ({ m with peers := peers }, [.peerConnected verifiedPeer.nodePeerId])
  | .closed sessionId nodePeerId =>
    .ok ({ m with sessionCommands := m.sessionCommands.remove sessionId, peers := m.peers.remove sessionId },
      (nodePeerId.map RuntimeEvent.peerDisconnected).toList)

/-! ### Commands -/

/-- the commands that were put on command channels, and how it ended -/
abbrev Sends := List (WorkerId × SessionCommand) × Except RuntimeError Unit

/-- `command_tx.send`; a channel is open as long as its worker reads from it -/
def sendCommand (isOpen : WorkerId → Bool) (worker : WorkerId) (command : SessionCommand) : Sends :=
  if isOpen worker then ([(worker, command)], .ok ()) else ([], .error .networkSend)

def sendFrameToPeer (m : NetworkManager) (isOpen : WorkerId → Bool) (peer : PeerId) (frame : Frame) : Sends :=
  match m.peers.sessionForNode peer with
  | none => ([], .ok ())
  | some sessionId =>
    match m.sessionCommands.get? sessionId with
    | none => ([], .ok ())
    | some worker => sendCommand isOpen worker (.sendFrame frame)

/-- `for session_id in self.peers.ready_sessions()` -/
def broadcastFrame (m : NetworkManager) (isOpen : WorkerId → Bool) (frame : Frame) : List SessionId → Sends
  | [] => ([], .ok ())
  | sessionId :: rest =>
    match m.sessionCommands.get? sessionId with
    | none => broadcastFrame m isOpen frame rest
    | some worker =>
      match sendCommand isOpen worker (.sendFrame frame) with
      | (sent, .error e) => (sent, .error e)
      | (sent, .ok ()) =>
        let (more, result) := broadcastFrame m isOpen frame rest
        (sent ++ more, result)

def clampSyncRequest (m : NetworkManager) (peer : PeerId) (request : SyncRequest) : SyncRequest :=
  request.clamp (((m.peers.sessionForNode peer).bind m.peers.get).map PeerSession.maxBlocksPerChunk)

def handleNetworkCommand (m : NetworkManager) (isOpen : WorkerId → Bool) : NetworkCommand → Sends
  | .sendFrame peer frame => m.sendFrameToPeer isOpen peer frame
  | .broadcastFrame frame => m.broadcastFrame isOpen frame m.peers.readySessions
  | .requestBlocks peer fromHeight toHeight =>
    m.sendFrameToPeer isOpen peer (NetworkMessage.syncRequest (m.clampSyncRequest peer ⟨fromHeight, toHeight⟩)).toBytes

end Events

end NetworkManager

/-! ## Slots -/

namespace PeerRegistry

variable {r r' : PeerRegistry} {id : SessionId}

theorem get_eq_some {session : PeerSession} : r.get id = some session ↔ r.sessions[id]? = some (some session) := by
  rw [get, Option.join_eq_some_iff]

theorem get_put (h : (r.get id).isSome = true) (session' : PeerSession) (other : SessionId) :
    (r.put id session').get other = if other = id then some session' else r.get other := by
  obtain ⟨s, hs⟩ := Option.isSome_iff_exists.1 h
  have hlt : id < r.sessions.length := (List.getElem?_eq_some_iff.1 (get_eq_some.1 hs)).1
  rw [get, put]
  dsimp only
  split_ifs with heq
  · rw [heq, List.getElem?_set_self hlt]
    rfl
  · rw [List.getElem?_set_ne (Ne.symm heq)]
    rfl

/-- what a new session gets: a slot that was free -/
structure Allocated (r : PeerRegistry) (transportPeerId : List UInt8) (isOutbound : Bool)
    (outboundAddr : Option SocketAddr) (r' : PeerRegistry) (id : SessionId) : Prop where
  free : r.get id = none
  get : ∀ other, r'.get other = if other = id then
    some ⟨id, isOutbound, outboundAddr, none, transportPeerId, .tcpConnected, 0, 0⟩ else r.get other
  byNodePeer : r'.byNodePeer = r.byNodePeer

/-- whether `alloc` finds a slot -/
def HasRoom (r : PeerRegistry) : Prop := none ∈ r.sessions ∨ r.sessions.length < r.maxPeers

instance (r : PeerRegistry) : Decidable r.HasRoom :=
  decidable_of_iff (r.sessions.any Option.isNone = true ∨ r.sessions.length < r.maxPeers) <| by
    rw [HasRoom, List.any_eq_true]
    refine or_congr ⟨?_, fun h => ⟨none, h, rfl⟩⟩ Iff.rfl
    rintro ⟨s, hs, hnone⟩
    exact Option.isNone_iff_eq_none.1 hnone ▸ hs

theorem alloc_spec (r : PeerRegistry) (transportPeerId : List UInt8) (isOutbound : Bool)
    (outboundAddr : Option SocketAddr) :
    (∃ r' id, r.alloc transportPeerId isOutbound outboundAddr = .ok (r', id) ∧ r.HasRoom ∧
      Allocated r transportPeerId isOutbound outboundAddr r' id) ∨
    r.alloc transportPeerId isOutbound outboundAddr = .error (.config "peer registry is full") ∧ ¬ r.HasRoom := by
  unfold alloc
  cases hfree : r.sessions.findIdx? Option.isNone with
  | some id =>
    obtain ⟨hlt, hnone, -⟩ := List.findIdx?_eq_some_iff_getElem.1 hfree
    have hslot : r.sessions[id]? = some none := by
      rw [List.getElem?_eq_getElem hlt, Option.isNone_iff_eq_none.1 hnone]
    refine .inl ⟨_, _, rfl, .inl (List.mem_of_getElem? hslot), ?_, fun other => ?_, rfl⟩
    · rw [get, hslot]
      rfl
    · rw [get]
      dsimp only
      split_ifs with heq
      · rw [heq, List.getElem?_set_self hlt]
        rfl
      · rw [List.getElem?_set_ne (Ne.symm heq)]
        rfl
  | none =>
    have htaken : none ∉ r.sessions := fun h => nomatch List.findIdx?_eq_none_iff.1 hfree none h
    dsimp only
    split_ifs with hfull
    · refine .inr ⟨rfl, fun h => ?_⟩
      rcases h with h | h
      · exact htaken h
      · omega
    · refine .inl ⟨_, _, rfl, .inr (Nat.lt_of_not_le hfull), ?_, fun other => ?_, rfl⟩
      · rw [get, List.getElem?_eq_none le_rfl]
        rfl
      · rw [get, get]
        dsimp only
        split_ifs with heq
        · rw [heq, List.getElem?_concat_length]
          rfl
        · rcases Nat.lt_or_gt_of_ne heq with hlt | hgt
          · rw [List.getElem?_append_left hlt]
          · rw [List.getElem?_eq_none (by rw [List.length_append, List.length_singleton]; omega),
              List.getElem?_eq_none hgt.le]

theorem get_remove (r : PeerRegistry) (id other : SessionId) :
    (r.remove id).get other = if other = id then none else r.get other := by
  unfold remove
  split
  · rename_i hnone
    split_ifs with heq
    · rw [heq, hnone]
    · rfl
  · rename_i session hsession
    have hlt : id < r.sessions.length := (List.getElem?_eq_some_iff.1 (get_eq_some.1 hsession)).1
    rw [get]
    dsimp only
    split_ifs with heq
    · rw [heq, List.getElem?_set_self hlt]
      rfl
    · rw [List.getElem?_set_ne (Ne.symm heq)]
      rfl

/-! ## The map by node -/

/-- the map by node lists exactly the sessions that have a node -/
def Consistent (r : PeerRegistry) : Prop :=
  ∀ n id, r.byNodePeer.get? n = some id ↔ ∃ session, r.get id = some session ∧ session.nodePeerId = some n

theorem consistent_new (maxPeers : ℕ) : (new maxPeers).Consistent := by
  intro n id
  constructor
  · exact fun h => nomatch h
  · rintro ⟨session, h, -⟩
    exact nomatch h

theorem Consistent.alloc (h : r.Consistent) {transportPeerId : List UInt8} {isOutbound : Bool}
    {outboundAddr : Option SocketAddr} (halloc : Allocated r transportPeerId isOutbound outboundAddr r' id) :
    r'.Consistent := by
  intro n other
  rw [halloc.byNodePeer, h, halloc.get]
  by_cases heq : other = id
  · rw [if_pos heq, heq, halloc.free]
    constructor
    · rintro ⟨session, hs, -⟩
      exact nomatch hs
    · rintro ⟨session, hs, hn⟩
      cases hs
      exact nomatch hn
  · rw [if_neg heq]

/-- other fields of a session do not matter -/
theorem Consistent.put (h : r.Consistent) {session session' : PeerSession} (hs : r.get id = some session)
    (hn : session'.nodePeerId = session.nodePeerId) : (r.put id session').Consistent := by
  intro n other
  rw [get_put (Option.isSome_of_eq_some hs)]
  refine (h n other).trans ?_
  by_cases heq : other = id
  · rw [if_pos heq, heq, hs]
    constructor
    · rintro ⟨s, hs', hn'⟩
      cases hs'
      exact ⟨session', rfl, hn.trans hn'⟩
    · rintro ⟨s, hs', hn'⟩
      cases hs'
      exact ⟨session, rfl, hn.symm.trans hn'⟩
  · rw [if_neg heq]

/-- a node is registered for a session without one, unless another session has it -/
theorem registerNodePeer_spec (h : r.Consistent) {session : PeerSession} (hs : r.get id = some session)
    (hnone : session.nodePeerId = none) (n : PeerId) :
    (r.byNodePeer.get? n = none ∧ ∃ r', r.registerNodePeer id n = .ok r' ∧ r'.Consistent ∧
      ∀ other, r'.get other = if other = id then some { session with nodePeerId := some n } else r.get other) ∨
    r.byNodePeer.get? n ≠ none ∧
      r.registerNodePeer id n = .error (.config "node peer is already registered to another session") := by
  cases hn : r.byNodePeer.get? n with
  | some other =>
    have hother : other ≠ id := by
      rintro rfl
      obtain ⟨s, hs', hn'⟩ := (h n other).1 hn
      rw [hs] at hs'
      cases hs'
      rw [hnone] at hn'
      cases hn'
    refine .inr ⟨Option.some_ne_none other, ?_⟩
    rw [registerNodePeer, hn]
    exact if_pos (by simpa using hother)
  | none =>
    refine .inl ⟨rfl, { r.put id { session with nodePeerId := some n } with
      byNodePeer := r.byNodePeer.insert n id }, ?_, fun n' other => ?_, fun other => ?_⟩
    · rw [registerNodePeer, hn, hs]
      rfl
    · have hget := get_put (Option.isSome_of_eq_some hs) { session with nodePeerId := some n } other
      change _ ↔ ∃ s, (r.put id { session with nodePeerId := some n }).get other = some s ∧ _
      rw [hget, BTreeMap.get?_insert]
      by_cases heq : other = id
      · subst heq
        rw [if_pos rfl]
        by_cases hnn : n = n'
        · rw [if_pos hnn]
          exact ⟨fun _ => ⟨_, rfl, congrArg some hnn⟩, fun _ => rfl⟩
        · rw [if_neg hnn, h]
          constructor
          · rintro ⟨s, hs', hn'⟩
            rw [hs] at hs'
            cases hs'
            rw [hnone] at hn'
            cases hn'
          · rintro ⟨s, hs', hn'⟩
            cases hs'
            exact absurd (Option.some.inj hn') hnn
      · rw [if_neg heq]
        by_cases hnn : n = n'
        · rw [if_pos hnn]
          constructor
          · exact fun h' => absurd (Option.some.inj h').symm heq
          · intro h'
            rw [← h n' other, ← hnn, hn] at h'
            cases h'
        · rw [if_neg hnn, h]
    · exact get_put (Option.isSome_of_eq_some hs) _ other

theorem Consistent.remove (h : r.Consistent) (id : SessionId) : (r.remove id).Consistent := by
  intro n other
  rw [get_remove]
  unfold PeerRegistry.remove
  split
  · rename_i hnone
    rw [h]
    by_cases heq : other = id
    · rw [if_pos heq, heq, hnone]
    · rw [if_neg heq]
  · rename_i session hsession
    -- the entry that goes is the one of this session
    have hentry : (match session.nodePeerId with
        | some nodePeerId => r.byNodePeer.remove nodePeerId
        | none => r.byNodePeer).get? n = if session.nodePeerId = some n then none else r.byNodePeer.get? n := by
      cases session.nodePeerId with
      | none => rfl
      | some n' =>
        dsimp only
        rw [BTreeMap.get?_remove]
        simp only [Option.some.injEq]
    dsimp only
    rw [hentry]
    by_cases heq : other = id
    · rw [if_pos heq, heq]
      constructor
      · intro hn
        split_ifs at hn with hsame
        obtain ⟨s, hs, hn'⟩ := (h n id).1 hn
        rw [hsession] at hs
        cases hs
        exact absurd hn' hsame
      · rintro ⟨s, hs, -⟩
        exact nomatch hs
    · rw [if_neg heq, ← h]
      split_ifs with hsame
      · constructor
        · exact fun hn => nomatch hn
        · intro hn
          have hid := (h n id).2 ⟨session, hsession, hsame⟩
          exact absurd (Option.some.inj (hn.symm.trans hid)) heq
      · exact Iff.rfl

end PeerRegistry

/-! ## Connections -/

namespace NetworkManager

theorem spawnSession_spec (m : NetworkManager) (w : WorkerId) (isOutbound : Bool)
    (outboundAddr : Option SocketAddr) :
    (∃ peers id, m.spawnSession w isOutbound outboundAddr =
        .ok ({ m with peers := peers, sessionCommands := m.sessionCommands.insert id w }, id) ∧ m.peers.HasRoom ∧
      PeerRegistry.Allocated m.peers [] isOutbound outboundAddr peers id) ∨
    m.spawnSession w isOutbound outboundAddr = .error (.config "peer registry is full") ∧ ¬ m.peers.HasRoom := by
  unfold spawnSession
  rcases m.peers.alloc_spec [] isOutbound outboundAddr with ⟨peers, id, hok, hroom, halloc⟩ | ⟨herror, hfull⟩
  · rw [hok]
    exact .inl ⟨peers, id, rfl, hroom, halloc⟩
  · rw [herror]
    exact .inr ⟨rfl, hfull⟩

/-- a bootstrap attempt does nothing, or gets a slot as an accepted connection does -/
theorem bootstrapOnce_spec (m : NetworkManager) (w : WorkerId) (network : Network) :
    (∃ cursor, m.bootstrapOnce w network = .ok ({ m with bootstrapCursor := cursor }, none) ∧
      ∀ address ∈ m.bootstrapAddress network, ¬ network.connects address = true) ∨
    ∃ address ∈ m.bootstrapAddress network, network.connects address = true ∧
      ((∃ cursor peers id, m.bootstrapOnce w network =
          .ok (⟨m.config, peers, m.sessionCommands.insert id w, cursor⟩, some id) ∧ m.peers.HasRoom ∧
        PeerRegistry.Allocated m.peers [] true (some address) peers id) ∨
      m.bootstrapOnce w network = .error (.config "peer registry is full") ∧ ¬ m.peers.HasRoom) := by
  unfold bootstrapOnce
  extract_lets cursor
  cases haddress : m.bootstrapAddress network with
  | none => exact .inl ⟨cursor, rfl, nofun⟩
  | some address =>
    dsimp only
    by_cases hconnects : network.connects address = true
    · rw [if_pos hconnects]
      refine .inr ⟨address, rfl, hconnects, ?_⟩
      rcases m.spawnSession_spec w true (some address) with ⟨peers, id, hok, hroom, halloc⟩ | ⟨herror, hfull⟩
      · rw [hok]
        exact .inl ⟨cursor, peers, id, rfl, hroom, halloc⟩
      · rw [herror]
        exact .inr ⟨rfl, hfull⟩
    · rw [if_neg hconnects]
      refine .inl ⟨cursor, rfl, fun address' ha => ?_⟩
      cases ha
      exact hconnects

/-! ## Command channels -/

theorem sendCommand_ok_iff {isOpen : WorkerId → Bool} {w : WorkerId} {command : SessionCommand} :
    (sendCommand isOpen w command).2 = .ok () ↔ isOpen w = true := by
  unfold sendCommand
  split_ifs with hopen
  · exact iff_of_true rfl hopen
  · exact iff_of_false nofun hopen

/-- the command channels that a command goes to -/
def targets (m : NetworkManager) : NetworkCommand → List WorkerId
  | .sendFrame peer _ | .requestBlocks peer _ _ => ((m.peers.sessionForNode peer).bind m.sessionCommands.get?).toList
  | .broadcastFrame _ => m.peers.readySessions.filterMap m.sessionCommands.get?

theorem sendFrameToPeer_ok_iff (m : NetworkManager) (isOpen : WorkerId → Bool) (peer : PeerId)
    (frame : Frame) : (m.sendFrameToPeer isOpen peer frame).2 = .ok () ↔
      ∀ w ∈ (m.peers.sessionForNode peer).bind m.sessionCommands.get?, isOpen w = true := by
  unfold sendFrameToPeer
  cases m.peers.sessionForNode peer with
  | none => exact iff_of_true rfl nofun
  | some id =>
    rw [Option.bind_some]
    dsimp only
    cases m.sessionCommands.get? id with
    | none => exact iff_of_true rfl nofun
    | some w =>
      rw [sendCommand_ok_iff]
      exact ⟨fun hopen w' hw => Option.some.inj hw ▸ hopen, fun hall => hall w rfl⟩

theorem broadcastFrame_ok_iff (m : NetworkManager) (isOpen : WorkerId → Bool) (frame : Frame)
    (ids : List SessionId) : (m.broadcastFrame isOpen frame ids).2 = .ok () ↔
      ∀ w ∈ ids.filterMap m.sessionCommands.get?, isOpen w = true := by
  induction ids with
  | nil => exact iff_of_true rfl nofun
  | cons id rest ih =>
    cases hchannel : m.sessionCommands.get? id with
    | none => rw [broadcastFrame, hchannel, List.filterMap_cons_none hchannel, ih]
    | some w =>
      rw [broadcastFrame, hchannel, List.filterMap_cons_some hchannel, List.forall_mem_cons, ← ih, ← sendCommand_ok_iff]
      dsimp only
      rcases sendCommand isOpen w (.sendFrame frame) with ⟨sent, e | _⟩
      · exact iff_of_false nofun fun h => nomatch h.1
      · exact (and_iff_right rfl).symm

/-- a command is handled without an error exactly if all its channels are open -/
theorem handleNetworkCommand_ok_iff [Crypto] (m : NetworkManager) (isOpen : WorkerId → Bool)
    (command : NetworkCommand) :
    (m.handleNetworkCommand isOpen command).2 = .ok () ↔ ∀ w ∈ m.targets command, isOpen w = true := by
  cases command with
  | sendFrame peer frame =>
    rw [handleNetworkCommand, sendFrameToPeer_ok_iff, targets]
    simp only [Option.mem_toList, Option.mem_def]
  | broadcastFrame frame => exact m.broadcastFrame_ok_iff isOpen frame _
  | requestBlocks peer fromHeight toHeight =>
    rw [handleNetworkCommand, sendFrameToPeer_ok_iff, targets]
    simp only [Option.mem_toList, Option.mem_def]

end NetworkManager

end Erp

end RustProof
