/-
Session setup by node hello, in both runtimes (`node_hello.rs` and `session.rs` of erp-runtime, `manager.rs` of
rp-runtime).

A remote that is authenticated by Noise as a transport peer presents a `NodeHello`: its node key, the node id, the transport
peer id, its limits and its capabilities, signed with the node key. `NodeHello.check` is what both `NodeHelloVerifier`s
check. The profile (`docs/embedded-libp2p-profile.md`) asks for more: the required capabilities must be present.

In erp-runtime a session is set up by `complete_inbound_handshake` or `complete_outbound_handshake`, and a hello may come
again during the session. What the remote does is a move of `Setup.machine`: the substreams it opens, by protocol, what it
answers, and that something fails or the connection ends. In rp-runtime the swarm reports hellos and their answers to
`handle_node_hello_event`. Recorded about the past are the hellos that the remote has presented.

Results:
- `peer_connected_after_hello`: a peer is reported as connected only after a hello that meets all rules of the profile, in
  runs in which every hello that passes the verifier has version 1 and the required capabilities; of the rules for a hello
  these two are all that the verifier does not check;
- `unprofiled_hello_connects`: a hello of version 2 without capabilities connects its peer in both runtimes.
-/
import RustProof.Runtime.Peers
import RustProof.Runtime.Registry

namespace RustProof

/-! ## The hello -/

structure PeerCapabilities where
  supportsSyncV1 : Bool
  supportsAnnounceV1 : Bool
  supportsPing : Bool

structure NodeHello where
  version : UInt16
  nodePublicKey : List UInt8
  nodePeerId : PeerId
  transportPeerId : List UInt8
  maxFrameLen : UInt32
  maxBlocksPerChunk : UInt16
  capabilities : PeerCapabilities
  signature : List UInt8

inductive NodeHelloRejectReason where
  | versionMismatch
  | invalidSignature
  | peerIdMismatch
  | transportBindingMismatch
  | unsupportedRequiredProtocol
deriving DecidableEq, Repr

structure NodeHelloResponse where
  accepted : Bool
  remote : NodeHello
  rejectReason : Option NodeHelloRejectReason

/-- the errors of the verifier, which both `RuntimeError`s have -/
inductive HelloError where
  | config (message : String)
  | crypto (message : String)
deriving DecidableEq, Repr

/-- `NodeHelloTranscript` in postcard -/
def NodeHello.transcript (hello : NodeHello) : List UInt8 :=
  varint 3 hello.version.toNat ++ hello.nodePeerId.bytes ++ putVec (fun b => [b]) hello.transportPeerId ++
    varint 5 hello.maxFrameLen.toNat ++ varint 3 hello.maxBlocksPerChunk.toNat ++
    putBool hello.capabilities.supportsSyncV1 ++ putBool hello.capabilities.supportsAnnounceV1 ++
    putBool hello.capabilities.supportsPing

/-- `node_hello_reject_reason` -/
def HelloError.rejectReason : HelloError → NodeHelloRejectReason
  | .config message =>
    if message = "node hello transport peer id does not match authenticated session peer" then .transportBindingMismatch
    else if message = "node hello peer id does not match node public key" then .peerIdMismatch
    else .invalidSignature
  | .crypto _ => .invalidSignature

section Hello

variable [Crypto]

namespace NodeHello

/-- what both verifiers check, in their order -/
def check (remote : NodeHello) (authenticatedTransportPeer : List UInt8) : Except HelloError Unit :=
  if remote.transportPeerId ≠ authenticatedTransportPeer then
    .error (.config "node hello transport peer id does not match authenticated session peer")
  else if sha256 remote.nodePublicKey ≠ remote.nodePeerId then
    .error (.config "node hello peer id does not match node public key")
  else
    match U8Array.ofList? publicKeySize remote.nodePublicKey with
    | none => .error (.config "node hello public key must be a compressed 33-byte P-256 key")
    | some verifyingKeyBytes =>
      match verifyingKeyFromBytes verifyingKeyBytes with
      | none => .error (.crypto "invalid verifying key")
      | some verifyingKey =>
        match (U8Array.ofList? 64 remote.signature).bind signatureFromBytes with
        | none => .error (.crypto "invalid node hello signature bytes")
        | some signature =>
          if verify verifyingKey remote.transcript signature then .ok ()
          else .error (.config "node hello signature verification failed")

/-! ### The rules -/

/-- version and required capabilities -/
structure Profiled (hello : NodeHello) : Prop where
  version : hello.version = 1
  sync : hello.capabilities.supportsSyncV1 = true
  announce : hello.capabilities.supportsAnnounceV1 = true

/-- the hello binds the node `n` to the transport peer `t` -/
structure Binds (hello : NodeHello) (t : List UInt8) (n : PeerId) : Prop where
  node : hello.nodePeerId = n
  hash : n = sha256 hello.nodePublicKey
  transport : hello.transportPeerId = t
  /-- a 33-byte key under which the signature over the transcript verifies -/
  signed : ∃ bytes key signature, U8Array.ofList? 33 hello.nodePublicKey = some bytes ∧
    verifyingKeyFromBytes bytes = some key ∧ (U8Array.ofList? 64 hello.signature).bind signatureFromBytes = some signature ∧
    verify key hello.transcript signature = true

/-- a hello passes the verifier exactly if it binds its node to the authenticated transport peer -/
theorem check_iff (hello : NodeHello) (t : List UInt8) : hello.check t = .ok () ↔ hello.Binds t hello.nodePeerId := by
  unfold check
  constructor
  · intro h
    split_ifs at h with htransport hhash
    split at h
    · cases h
    · rename_i bytes hbytes
      split at h
      · cases h
      · rename_i key hkey
        split at h
        · cases h
        · rename_i signature hsignature
          split_ifs at h with hverify
          exact ⟨rfl, (not_not.1 hhash).symm, not_not.1 htransport, bytes, key, signature, hbytes, hkey, hsignature, hverify⟩
  · rintro ⟨-, hhash, htransport, bytes, key, signature, hbytes, hkey, hsignature, hverify⟩
    rw [if_neg (not_not.2 htransport), if_neg (not_not.2 hhash.symm), hbytes]
    dsimp only
    rw [hkey]
    dsimp only
    rw [hsignature]
    exact if_pos hverify

end NodeHello

/-- `NodeHelloVerifier::verify` of rp-runtime -/
def NodeHelloVerifier.verify (remote : NodeHello) (authenticatedTransportPeer : List UInt8) :
    Except HelloError VerifiedPeer :=
  (remote.check authenticatedTransportPeer).map fun () => ⟨remote.nodePeerId, remote.maxBlocksPerChunk⟩

/-- `NodeHelloVerifier::verify` of erp-runtime -/
def Erp.NodeHelloVerifier.verify (remote : NodeHello) (authenticatedTransportPeer : List UInt8) :
    Except HelloError Erp.VerifiedPeer :=
  (remote.check authenticatedTransportPeer).map fun () =>
    ⟨remote.nodePeerId, remote.transportPeerId, remote.maxFrameLen, remote.maxBlocksPerChunk⟩

theorem NodeHello.binds_of_check {hello : NodeHello} {t : List UInt8} {α : Type} {f : Unit → α} {a : α}
    (h : (hello.check t).map f = .ok a) : hello.Binds t hello.nodePeerId ∧ f () = a := by
  cases hcheck : hello.check t with
  | error e =>
    rw [hcheck] at h
    cases h
  | ok _ =>
    rw [hcheck] at h
    exact ⟨(hello.check_iff t).1 hcheck, Except.ok.inj h⟩

theorem NodeHelloVerifier.verify_eq_ok {hello : NodeHello} {t : List UInt8} {peer : VerifiedPeer}
    (h : verify hello t = .ok peer) : hello.Binds t peer.nodePeerId := by
  obtain ⟨hbinds, rfl⟩ := NodeHello.binds_of_check h
  exact hbinds

theorem Erp.NodeHelloVerifier.verify_eq_ok {hello : NodeHello} {t : List UInt8} {peer : Erp.VerifiedPeer}
    (h : verify hello t = .ok peer) : hello.Binds t peer.nodePeerId := by
  obtain ⟨hbinds, rfl⟩ := NodeHello.binds_of_check h
  exact hbinds

/-! ## erp-runtime -/

namespace Erp

inductive ConnectionRole where
  | inbound
  | outbound

inductive HandshakeOutcome where
  | established (peer : VerifiedPeer)
  | rejected

/-- a substream that the remote has opened, by the protocol that was negotiated on it -/
inductive Inbound where
  | identify
  | ping
  /-- with the local hello as it is built for the response, and how the response is written -/
  | nodeHello (hello : NodeHello) (localHello : Except RuntimeError NodeHello) (written : Except IoError Unit)

/-- the outcome, and the response that goes out -/
def answerNodeHello (remoteHello : NodeHello) (localHello : Except RuntimeError NodeHello) (written : Except IoError Unit)
    (authenticatedTransportPeer : List UInt8) : Except RuntimeError HandshakeOutcome × Option NodeHelloResponse :=
  match NodeHelloVerifier.verify remoteHello authenticatedTransportPeer with
  | .error e =>
    match localHello with
    | .error e' => (.error e', none)
    | .ok localHello =>
      -- that the rejection cannot be written is only logged
      (.ok .rejected, written.toOption.map fun () => ⟨false, localHello, some e.rejectReason⟩)
  | .ok verifiedPeer =>
    match localHello with
    | .error e' => (.error e', none)
    | .ok localHello =>
      match written with
      | .error e' => (.error (.networkError e'), none)
      | .ok () => (.ok (.established verifiedPeer), some ⟨true, localHello, none⟩)

inductive SetupStage where
  /-- the loop of `complete_inbound_handshake` -/
  | inbound (identifyServed : Bool) (verifiedPeer : Option VerifiedPeer)
  /-- the three parts of `complete_outbound_handshake` -/
  | serveIdentify
  | requestIdentify
  | requestNodeHello
  /-- `run_established_session` -/
  | established (peer : VerifiedPeer)
  | ended (error : Option RuntimeError)

/-- one connection -/
structure Setup where
  /-- the transport peer that Noise has authenticated -/
  transportPeer : List UInt8
  stage : SetupStage
  /-- `Ready`, as long as the network manager has not taken it -/
  ready : Option VerifiedPeer
  /-- the hellos that the remote has presented -/
  presented : List NodeHello
  responses : List NodeHelloResponse
  /-- what the network manager has told the node manager for this session -/
  reports : List RuntimeEvent

inductive SetupMove where
  | substream (inbound : Inbound)
  /-- the transport peer id of the remote's identify answer -/
  | identified (transportPeerId : List UInt8)
  /-- the remote's answer to the local hello -/
  | helloResponse (response : NodeHelloResponse)
  /-- the remote ends the connection -/
  | closed
  /-- anything that is awaited fails -/
  | failed (error : RuntimeError)
  /-- a network manager takes `Ready` -/
  | taken (manager : NetworkManager) (sessionId : SessionId)

namespace Setup

/-- `establish_session` after the Noise handshake -/
def start (role : ConnectionRole) (transportPeer : List UInt8) (expectedTransportPeer : Option (List UInt8)) : Setup :=
  { transportPeer := transportPeer
    stage :=
      if expectedTransportPeer.any fun expected => expected ≠ transportPeer then
        .ended (some (.config "bootstrap peer transport identity did not match expectation"))
      else
        match role with
        | .inbound => .inbound false none
        | .outbound => .serveIdentify
    ready := none
    presented := []
    responses := []
    reports := [] }

def finish (σ : Setup) (error : Option RuntimeError) : Setup := { σ with stage := .ended error }

/-- the session is established, and `Ready` goes to the network manager -/
def establish (σ : Setup) (peer : VerifiedPeer) : Setup := { σ with stage := .established peer, ready := some peer }

/-- the head of the loop of `complete_inbound_handshake` -/
def inboundLoop (σ : Setup) (identifyServed : Bool) (verifiedPeer : Option VerifiedPeer) : Setup :=
  match identifyServed, verifiedPeer with
  | true, some peer => σ.establish peer
  | _, _ => { σ with stage := .inbound identifyServed verifiedPeer }

/-- `answer_node_hello` on this connection -/
def hear (σ : Setup) (hello : NodeHello) (localHello : Except RuntimeError NodeHello)
    (written : Except IoError Unit) (authenticatedTransportPeer : List UInt8) : Setup × Except RuntimeError HandshakeOutcome :=
  let (outcome, response) := answerNodeHello hello localHello written authenticatedTransportPeer
  ({ σ with presented := σ.presented ++ [hello], responses := σ.responses ++ response.toList }, outcome)

/-- the state after a move, if it is possible -/
def exec (σ : Setup) : SetupMove → Option Setup
  | .substream inbound =>
    match σ.stage, inbound with
    | .inbound _ verifiedPeer, .identify => some (σ.inboundLoop true verifiedPeer)
    | .inbound identifyServed verifiedPeer, .ping => some (σ.inboundLoop identifyServed verifiedPeer)
    | .inbound identifyServed _, .nodeHello hello localHello written =>
      match σ.hear hello localHello written σ.transportPeer with
      | (σ, .ok (.established peer)) => some (σ.inboundLoop identifyServed (some peer))
      | (σ, .ok .rejected) => some (σ.finish none)
      | (σ, .error e) => some (σ.finish (some e))
    | .serveIdentify, .identify => some { σ with stage := .requestIdentify }
    | .serveIdentify, .ping => some σ
    | .established peer, .nodeHello hello localHello written =>
      match σ.hear hello localHello written peer.transportPeerId with
      | (σ, .ok (.established remote)) =>
        if remote.nodePeerId ≠ peer.nodePeerId then
          some (σ.finish (some (.config "node hello peer changed during an existing session")))
        else some σ
      | (σ, .ok .rejected) => some σ
      | (σ, .error e) => some (σ.finish (some e))
    | .established _, _ => some σ
    | _, _ => none
  | .identified transportPeerId =>
    match σ.stage with
    | .requestIdentify =>
      if transportPeerId ≠ σ.transportPeer then
        some (σ.finish (some (.config
          "identify transport peer id did not match the authenticated transport session")))
      else some { σ with stage := .requestNodeHello }
    | _ => none
  | .helloResponse response =>
    match σ.stage with
    | .requestNodeHello =>
      let σ := { σ with presented := σ.presented ++ [response.remote] }
      if response.accepted = false then some (σ.finish none)
      else
        match NodeHelloVerifier.verify response.remote σ.transportPeer with
        | .ok peer => some (σ.establish peer)
        | .error _ => some (σ.finish none)
    | _ => none
  | .closed =>
    match σ.stage with
    | .inbound _ _ =>
      some (σ.finish (some (.config "remote closed the connection before session setup completed")))
    | .serveIdentify => some (σ.finish (some (.config "remote closed the connection before requesting identify")))
    | .established _ => some (σ.finish none)
    | _ => none
  | .failed error =>
    match σ.stage with
    | .ended _ => none
    | _ => some (σ.finish (some error))
  | .taken manager sessionId =>
    match σ.ready with
    | none => none
    | some peer =>
      match manager.handleSessionEvent (.ready sessionId peer) with
      | .error _ => some { σ with ready := none }
      | .ok (_, events) => some { σ with ready := none, reports := σ.reports ++ events }

/-- all that a remote can do on its connection -/
def machine : Machine Setup SetupMove where
  init σ := ∃ role transportPeer expectedTransportPeer, σ = .start role transportPeer expectedTransportPeer
  exec := exec

end Setup

/-- the hello that is presented with a move -/
def SetupMove.hello : SetupMove → Option NodeHello
  | .substream (.nodeHello hello _ _) => some hello
  | .helloResponse response => some response.remote
  | _ => none

end Erp

/-! ## rp-runtime -/

/-- the events of the node hello protocol -/
inductive HelloEvent where
  /-- with the local hello, if it can be built, and whether the response is sent -/
  | request (peer : TransportPeer) (request : NodeHello) (localHello : Option NodeHello) (sent : Bool)
  | response (peer : TransportPeer) (response : NodeHelloResponse)
  /-- `OutboundFailure`, `InboundFailure` and `ResponseSent` are logged -/
  | other (peer : TransportPeer)

inductive HelloCall where
  | sendResponse (response : NodeHelloResponse)
  | disconnect (peer : TransportPeer)

namespace NetworkManager

def handleNodeHelloEvent (m : NetworkManager) : HelloEvent → NetworkManager × List RuntimeEvent × List HelloCall
  | .request peer request localHello sent =>
    match NodeHelloVerifier.verify request peer, localHello with
    | .error _, none => (m, [], [.disconnect peer])
    | .error e, some remote =>
      (m, [], (if sent then [.sendResponse ⟨false, remote, some e.rejectReason⟩] else []) ++ [.disconnect peer])
    | .ok _, none => (m, [], [.disconnect peer])
    | .ok verified, some remote =>
      if sent then
        let (m, events) := m.registerVerifiedPeer peer verified
        (m, events, [.sendResponse ⟨true, remote, none⟩])
      else (m, [], [.disconnect peer])
  | .response peer response =>
    if response.accepted = false then (m, [], [.disconnect peer])
    else
      match NodeHelloVerifier.verify response.remote peer with
      | .error _ => (m, [], [.disconnect peer])
      | .ok verified =>
        let (m, events) := m.registerVerifiedPeer peer verified
        (m, events, [])
  | .other _ => (m, [], [])

end NetworkManager

def HelloEvent.peer : HelloEvent → TransportPeer
  | .request peer _ _ _ | .response peer _ | .other peer => peer

/-- the hello that an event brings -/
def HelloEvent.hello : HelloEvent → Option NodeHello
  | .request _ hello _ _ => some hello
  | .response _ answer => some answer.remote
  | .other _ => none

/-- the network manager with all that it has seen and reported -/
structure HelloHost where
  manager : NetworkManager
  presented : List (TransportPeer × NodeHello)
  /-- what the node manager was told, by the transport peer that gave the occasion -/
  reports : List (Option TransportPeer × RuntimeEvent)

inductive HelloHostMove where
  | hello (event : HelloEvent)
  /-- any other event of the swarm -/
  | swarm (event : SwarmEvent)

namespace HelloHost

def exec (σ : HelloHost) : HelloHostMove → Option HelloHost
  | .hello event =>
    let (manager, events, _) := σ.manager.handleNodeHelloEvent event
    some ⟨manager, σ.presented ++ event.hello.toList.map fun h => (event.peer, h),
      σ.reports ++ events.map fun e => (some event.peer, e)⟩
  | .swarm event =>
    match event with
    | .nodeHello _ _ => none
    | event =>
      let (manager, events, _) := σ.manager.handleSwarmEvent event
      some ⟨manager, σ.presented, σ.reports ++ events.map fun e => (event.source, e)⟩

def machine : Machine HelloHost HelloHostMove where
  init σ := σ = ⟨.new, [], []⟩
  exec := exec

end HelloHost

/-! ## Setup in erp-runtime -/

namespace Erp

variable {σ σ' : Setup} {peer : VerifiedPeer}

/-- a hello that passes the verifier has version 1 and the required capabilities -/
def Setup.Profiled (σ : Setup) (move : SetupMove) : Prop :=
  ∀ hello ∈ move.hello, hello.check σ.transportPeer = .ok () → hello.Profiled

/-- the remote has presented a hello with which `peer` was verified -/
def Setup.Vouched (σ : Setup) (peer : VerifiedPeer) : Prop :=
  ∃ hello ∈ σ.presented, NodeHelloVerifier.verify hello σ.transportPeer = .ok peer

theorem NetworkManager.handleSessionEvent_ready {m m' : NetworkManager} {sessionId : SessionId} {events : List RuntimeEvent}
    {n : PeerId} (h : m.handleSessionEvent (.ready sessionId peer) = .ok (m', events)) (hn : .peerConnected n ∈ events) :
    n = peer.nodePeerId := by
  simp only [NetworkManager.handleSessionEvent] at h
  split at h
  · cases h
  · split at h <;> cases h
    cases List.mem_singleton.1 hn
    rfl

structure SetupInv (σ : Setup) : Prop where
  inbound : ∀ identifyServed peer, σ.stage = .inbound identifyServed (some peer) → σ.Vouched peer
  ready : ∀ peer, σ.ready = some peer → σ.Vouched peer
  reports : ∀ n, .peerConnected n ∈ σ.reports → ∃ peer, σ.Vouched peer ∧ peer.nodePeerId = n
  profiled : ∀ hello ∈ σ.presented, hello.check σ.transportPeer = .ok () → hello.Profiled

theorem setupInv_start (role : ConnectionRole) (transportPeer : List UInt8) (expectedTransportPeer : Option (List UInt8)) :
    SetupInv (.start role transportPeer expectedTransportPeer) where
  inbound := by
    intro identifyServed peer h
    dsimp only [Setup.start] at h
    split_ifs at h
    cases role <;> cases h
  ready := nofun
  reports := nofun
  profiled := nofun

namespace SetupInv

/-- a stage that does not matter -/
theorem setStage (hI : SetupInv σ) {stage : SetupStage}
    (hstage : ∀ identifyServed peer, stage ≠ .inbound identifyServed (some peer)) : SetupInv { σ with stage := stage } :=
  ⟨fun identifyServed peer h => absurd h (hstage identifyServed peer), hI.ready, hI.reports, hI.profiled⟩

theorem finish (hI : SetupInv σ) (error : Option RuntimeError) : SetupInv (σ.finish error) := hI.setStage nofun

theorem establish (hI : SetupInv σ) (h : σ.Vouched peer) : SetupInv (σ.establish peer) := by
  refine ⟨nofun, fun peer' h' => ?_, hI.reports, hI.profiled⟩
  cases h'
  exact h

theorem inboundLoop (hI : SetupInv σ) (identifyServed : Bool) {verifiedPeer : Option VerifiedPeer}
    (h : ∀ peer, verifiedPeer = some peer → σ.Vouched peer) : SetupInv (σ.inboundLoop identifyServed verifiedPeer) := by
  unfold Setup.inboundLoop
  split
  · exact hI.establish (h _ rfl)
  · refine ⟨fun identifyServed' peer hstage => ?_, hI.ready, hI.reports, hI.profiled⟩
    cases hstage
    exact h peer rfl

/-- another hello is presented -/
theorem present (hI : SetupInv σ) {hello : NodeHello} (responses : List NodeHelloResponse)
    (hprofiled : hello.check σ.transportPeer = .ok () → hello.Profiled) :
    SetupInv { σ with presented := σ.presented ++ [hello], responses := responses } := by
  have hmono {peer : VerifiedPeer} (h : σ.Vouched peer) :
      Setup.Vouched { σ with presented := σ.presented ++ [hello], responses := responses } peer :=
    h.imp fun _ hmem => ⟨List.mem_append_left _ hmem.1, hmem.2⟩
  refine ⟨fun _ peer h => hmono (hI.inbound _ peer h), fun peer h => hmono (hI.ready peer h), fun n hn => ?_,
    fun hello' hmem => ?_⟩
  · obtain ⟨peer, hpeer, heq⟩ := hI.reports n hn
    exact ⟨peer, hmono hpeer, heq⟩
  · rcases List.mem_append.1 hmem with hmem | hmem
    · exact hI.profiled hello' hmem
    · cases List.mem_singleton.1 hmem
      exact hprofiled

theorem answerNodeHello_established {hello : NodeHello} {localHello : Except RuntimeError NodeHello}
    {written : Except IoError Unit} {t : List UInt8} (h : (answerNodeHello hello localHello written t).1 = .ok (.established peer)) :
    NodeHelloVerifier.verify hello t = .ok peer := by
  unfold answerNodeHello at h
  split at h
  · split at h <;> cases h
  · rename_i verifiedPeer hverify
    split at h
    · cases h
    · split at h
      · cases h
      · cases h
        exact hverify

theorem substream (hI : SetupInv σ) {inbound : Inbound} (hcond : σ.Profiled (.substream inbound))
    (hexec : σ.exec (.substream inbound) = some σ') : SetupInv σ' := by
  cases inbound with
  | identify =>
    cases hstage : σ.stage with
    | inbound identifyServed verifiedPeer =>
      simp only [Setup.exec, hstage] at hexec
      cases hexec
      exact hI.inboundLoop true fun peer hpeer => hI.inbound identifyServed peer (hpeer ▸ hstage)
    | serveIdentify =>
      simp only [Setup.exec, hstage] at hexec
      cases hexec
      exact hI.setStage nofun
    | established peer =>
      simp only [Setup.exec, hstage] at hexec
      cases hexec
      exact hI
    | requestIdentify | requestNodeHello | ended _ =>
      simp only [Setup.exec, hstage] at hexec
      cases hexec
  | ping =>
    cases hstage : σ.stage with
    | inbound identifyServed verifiedPeer =>
      simp only [Setup.exec, hstage] at hexec
      cases hexec
      exact hI.inboundLoop identifyServed fun peer hpeer => hI.inbound identifyServed peer (hpeer ▸ hstage)
    | serveIdentify | established _ =>
      simp only [Setup.exec, hstage] at hexec
      cases hexec
      exact hI
    | requestIdentify | requestNodeHello | ended _ =>
      simp only [Setup.exec, hstage] at hexec
      cases hexec
  | nodeHello hello localHello written =>
    have hheard (t : List UInt8) : SetupInv (σ.hear hello localHello written t).1 := hI.present _ (hcond hello rfl)
    cases hstage : σ.stage with
    | inbound identifyServed verifiedPeer =>
      simp only [Setup.exec, hstage] at hexec
      have hpresented := hheard σ.transportPeer
      split at hexec
      · rename_i σ₁ peer hhear
        cases hexec
        rw [hhear] at hpresented
        refine hpresented.inboundLoop identifyServed fun peer' hpeer' => ?_
        cases hpeer'
        obtain ⟨hσ₁, houtcome⟩ := Prod.mk.inj hhear
        rw [← hσ₁]
        exact ⟨hello, List.mem_append_right _ (List.mem_singleton_self hello), answerNodeHello_established houtcome⟩
      · rename_i σ₁ hhear
        cases hexec
        rw [hhear] at hpresented
        exact hpresented.finish none
      · rename_i σ₁ e hhear
        cases hexec
        rw [hhear] at hpresented
        exact hpresented.finish (some e)
    | established peer =>
      simp only [Setup.exec, hstage] at hexec
      have hpresented := hheard peer.transportPeerId
      split at hexec
      · rename_i σ₁ remote hhear
        rw [hhear] at hpresented
        split_ifs at hexec
        · cases hexec
          exact hpresented.finish _
        · cases hexec
          exact hpresented
      · rename_i σ₁ hhear
        cases hexec
        rw [hhear] at hpresented
        exact hpresented
      · rename_i σ₁ e hhear
        cases hexec
        rw [hhear] at hpresented
        exact hpresented.finish (some e)
    | serveIdentify | requestIdentify | requestNodeHello | ended _ =>
      simp only [Setup.exec, hstage] at hexec
      cases hexec

theorem helloResponse (hI : SetupInv σ) {response : NodeHelloResponse} (hcond : σ.Profiled (.helloResponse response))
    (hexec : σ.exec (.helloResponse response) = some σ') : SetupInv σ' := by
  simp only [Setup.exec] at hexec
  split at hexec
  · have hpresented := hI.present σ.responses (hcond response.remote rfl)
    split_ifs at hexec
    · cases hexec
      exact hpresented.finish none
    · split at hexec
      · rename_i peer hverify
        cases hexec
        exact hpresented.establish ⟨response.remote, List.mem_append_right _ (List.mem_singleton_self _), hverify⟩
      · cases hexec
        exact hpresented.finish none
  · cases hexec

theorem taken (hI : SetupInv σ) {manager : NetworkManager} {sessionId : SessionId}
    (hexec : σ.exec (.taken manager sessionId) = some σ') : SetupInv σ' := by
  simp only [Setup.exec] at hexec
  split at hexec
  · cases hexec
  · rename_i peer hready
    split at hexec
    · cases hexec
      exact ⟨hI.inbound, nofun, hI.reports, hI.profiled⟩
    · rename_i m events hhandle
      cases hexec
      refine ⟨hI.inbound, nofun, fun n hn => ?_, hI.profiled⟩
      rcases List.mem_append.1 hn with hn | hn
      · exact hI.reports n hn
      · exact ⟨peer, hI.ready peer hready, (NetworkManager.handleSessionEvent_ready hhandle hn).symm⟩

theorem step (hI : SetupInv σ) {move : SetupMove} (hcond : σ.Profiled move) (hexec : σ.exec move = some σ') :
    SetupInv σ' := by
  cases move with
  | substream inbound => exact hI.substream hcond hexec
  | identified transportPeerId =>
    simp only [Setup.exec] at hexec
    split at hexec
    · split_ifs at hexec
      · cases hexec
        exact hI.finish _
      · cases hexec
        exact hI.setStage nofun
    · cases hexec
  | helloResponse response => exact hI.helloResponse hcond hexec
  | closed =>
    simp only [Setup.exec] at hexec
    split at hexec <;> cases hexec
    · exact hI.finish _
    · exact hI.finish _
    · exact hI.finish _
  | failed error =>
    simp only [Setup.exec] at hexec
    split at hexec <;> cases hexec
    exact hI.finish _
  | taken manager sessionId => exact hI.taken hexec

end SetupInv

end Erp

/-! ## Setup in rp-runtime -/

namespace NetworkManager

variable {m : NetworkManager} {n : PeerId}

theorem registerVerifiedPeer_connected {t : TransportPeer} {verified : VerifiedPeer}
    (h : .peerConnected n ∈ (m.registerVerifiedPeer t verified).2) : n = verified.nodePeerId := by
  unfold registerVerifiedPeer at h
  dsimp only at h
  split_ifs at h
  · cases List.mem_singleton.1 h
    rfl
  · exact nomatch h

/-- a peer is reported for a hello that passed -/
theorem handleNodeHelloEvent_connected {event : HelloEvent}
    (h : .peerConnected n ∈ (m.handleNodeHelloEvent event).2.1) : ∃ hello ∈ event.hello, hello.Binds event.peer n := by
  cases event with
  | request peer request localHello sent =>
    simp only [handleNodeHelloEvent] at h
    split at h
    · exact nomatch h
    · exact nomatch h
    · exact nomatch h
    · rename_i verified remote hverify
      split_ifs at h
      · rw [registerVerifiedPeer_connected h]
        exact ⟨request, rfl, NodeHelloVerifier.verify_eq_ok hverify⟩
      · exact nomatch h
  | response peer response =>
    simp only [handleNodeHelloEvent] at h
    split_ifs at h
    · exact nomatch h
    · split at h
      · exact nomatch h
      · rename_i verified hverify
        rw [registerVerifiedPeer_connected h]
        exact ⟨response.remote, rfl, NodeHelloVerifier.verify_eq_ok hverify⟩
  | other peer => exact nomatch h

/-- nothing else in the swarm connects a peer -/
theorem handleSwarmEvent_connected {event : SwarmEvent} (hother : ∀ peer verified, event ≠ .nodeHello peer verified) :
    .peerConnected n ∉ (m.handleSwarmEvent event).2.1 := by
  intro h
  cases event with
  | connectionClosed peer =>
    simp only [handleSwarmEvent, unregisterTransportPeer] at h
    split at h
    · cases h
    · cases List.mem_singleton.1 h
  | nodeHello peer verified => exact hother peer verified rfl
  | identifyReceived peer host => cases h
  | syncOutboundFailure requestId => cases h
  | gossipsubMessage peer data | syncRequest peer request channel | announceRequest peer request
  | announceResponse peer response | syncResponse requestId response =>
    simp only [handleSwarmEvent] at h
    split at h
    · cases h
    · cases List.mem_singleton.1 h

end NetworkManager

/-- a hello that passes the verifier has version 1 and the required capabilities -/
def HelloHost.Profiled (_ : HelloHost) : HelloHostMove → Prop
  | .hello event => ∀ hello ∈ event.hello, hello.check event.peer = .ok () → hello.Profiled
  | .swarm _ => True

structure HelloHostInv (σ : HelloHost) : Prop where
  reports : ∀ source n, (source, .peerConnected n) ∈ σ.reports →
    ∃ t hello, source = some t ∧ (t, hello) ∈ σ.presented ∧ hello.Binds t n
  profiled : ∀ t hello, (t, hello) ∈ σ.presented → hello.check t = .ok () → hello.Profiled

theorem HelloHostInv.step {σ σ' : HelloHost} (hI : HelloHostInv σ) {move : HelloHostMove} (hcond : σ.Profiled move)
    (hexec : σ.exec move = some σ') : HelloHostInv σ' := by
  cases move with
  | hello event =>
    cases hexec
    refine ⟨fun source n hn => ?_, fun t hello hmem => ?_⟩
    · rcases List.mem_append.1 hn with hn | hn
      · obtain ⟨t, hello, hsource, hmem, hbinds⟩ := hI.reports source n hn
        exact ⟨t, hello, hsource, List.mem_append_left _ hmem, hbinds⟩
      · obtain ⟨e, he, heq⟩ := List.mem_map.1 hn
        obtain ⟨rfl, rfl⟩ := Prod.mk.inj heq
        obtain ⟨hello, hhello, hbinds⟩ := NetworkManager.handleNodeHelloEvent_connected he
        refine ⟨event.peer, hello, rfl, List.mem_append_right _ ?_, hbinds⟩
        exact List.mem_map_of_mem (Option.mem_toList.2 hhello)
    · rcases List.mem_append.1 hmem with hmem | hmem
      · exact hI.profiled t hello hmem
      · obtain ⟨hello', hhello, heq⟩ := List.mem_map.1 hmem
        obtain ⟨rfl, rfl⟩ := Prod.mk.inj heq
        exact hcond hello' (Option.mem_toList.1 hhello)
  | swarm event =>
    simp only [HelloHost.exec] at hexec
    split at hexec
    · cases hexec
    · rename_i hother
      cases hexec
      refine ⟨fun source n hn => ?_, hI.profiled⟩
      rcases List.mem_append.1 hn with hn | hn
      · exact hI.reports source n hn
      · obtain ⟨e, he, heq⟩ := List.mem_map.1 hn
        obtain ⟨-, rfl⟩ := Prod.mk.inj heq
        exact absurd he (NetworkManager.handleSwarmEvent_connected hother)

/-! ## Both runtimes -/

theorem NodeHello.Binds.profiled {hello : NodeHello} {t : List UInt8} {n : PeerId} (h : hello.Binds t n)
    (hall : hello.check t = .ok () → hello.Profiled) : hello.Profiled := by
  refine hall ((hello.check_iff t).2 ?_)
  rw [h.node]
  exact h

/-- **A peer becomes connected only after the full hello check.** In every run of a session setup in which each hello that
passes the verifier has version 1 and the required capabilities, in erp-runtime and in rp-runtime: if the node `n` is
reported as connected for a transport peer, then that transport peer has presented a hello with version 1 and the required
capabilities which binds `n` to it. A hello that passes a verifier binds its node in any case, and only then. -/
theorem peer_connected_after_hello :
    (∀ σ, Erp.Setup.machine.Reached Erp.Setup.Profiled σ → ∀ n, .peerConnected n ∈ σ.reports →
      ∃ hello ∈ σ.presented, hello.Profiled ∧ hello.Binds σ.transportPeer n) ∧
    (∀ σ, HelloHost.machine.Reached HelloHost.Profiled σ → ∀ source n, (source, .peerConnected n) ∈ σ.reports →
      ∃ t hello, source = some t ∧ (t, hello) ∈ σ.presented ∧ hello.Profiled ∧ hello.Binds t n) ∧
    ∀ (hello : NodeHello) (t : List UInt8), hello.check t = .ok () ↔ hello.Binds t hello.nodePeerId := by
  refine ⟨fun σ h n hn => ?_, fun σ h source n hn => ?_, NodeHello.check_iff⟩
  · have hI : Erp.SetupInv σ := by
      refine Machine.Reached.invariant (I := Erp.SetupInv) ?_ (fun _ _ _ hI hcond hexec => hI.step hcond hexec) h
      rintro _ ⟨role, transportPeer, expectedTransportPeer, rfl⟩
      exact Erp.setupInv_start role transportPeer expectedTransportPeer
    obtain ⟨peer, ⟨hello, hmem, hverify⟩, rfl⟩ := hI.reports n hn
    have hbinds := Erp.NodeHelloVerifier.verify_eq_ok hverify
    exact ⟨hello, hmem, hbinds.profiled (hI.profiled hello hmem), hbinds⟩
  · have hI : HelloHostInv σ := by
      refine Machine.Reached.invariant (I := HelloHostInv) ?_ (fun _ _ _ hI hcond hexec => hI.step hcond hexec) h
      rintro _ rfl
      exact ⟨nofun, nofun⟩
    obtain ⟨t, hello, hsource, hmem, hbinds⟩ := hI.reports source n hn
    exact ⟨t, hello, hsource, hmem, hbinds.profiled (hI.profiled t hello hmem), hbinds⟩

instance (hello : NodeHello) : Decidable hello.Profiled :=
  decidable_of_iff (hello.version = 1 ∧ hello.capabilities.supportsSyncV1 = true ∧
    hello.capabilities.supportsAnnounceV1 = true) ⟨fun h => ⟨h.1, h.2.1, h.2.2⟩, fun h => ⟨h.version, h.sync, h.announce⟩⟩

instance (σ : Erp.Setup) (move : Erp.SetupMove) : Decidable (σ.Profiled move) :=
  inferInstanceAs (Decidable (∀ hello ∈ move.hello, hello.check σ.transportPeer = .ok () → hello.Profiled))

instance (σ : HelloHost) (move : HelloHostMove) : Decidable (σ.Profiled move) :=
  match move with
  | .hello event => inferInstanceAs (Decidable (∀ hello ∈ event.hello, hello.check event.peer = .ok () → hello.Profiled))
  | .swarm _ => .isTrue trivial

def RuntimeEvent.connected : RuntimeEvent → Option PeerId
  | .peerConnected peer => some peer
  | _ => none

theorem RuntimeEvent.connected_eq_some {event : RuntimeEvent} {n : PeerId} (h : event.connected = some n) :
    event = .peerConnected n := by
  cases event with
  | peerConnected peer => rw [Option.some.inj h]
  | tick _ | peerDisconnected _ | frameReceived _ _ | storageLoaded _ _ | latestSnapshotLoaded _ _ => exact nomatch h

theorem mem_of_connected {events : List RuntimeEvent} {n : PeerId} (h : n ∈ events.filterMap RuntimeEvent.connected) :
    .peerConnected n ∈ events := by
  obtain ⟨event, hmem, hevent⟩ := List.mem_filterMap.1 h
  exact RuntimeEvent.connected_eq_some hevent ▸ hmem

theorem mem_of_connected_pair {reports : List (Option TransportPeer × RuntimeEvent)} {source : Option TransportPeer}
    {n : PeerId} (h : (source, n) ∈ reports.filterMap fun r => r.2.connected.map fun n => (r.1, n)) :
    (source, .peerConnected n) ∈ reports := by
  obtain ⟨⟨source', event⟩, hmem, hpair⟩ := List.mem_filterMap.1 h
  obtain ⟨n', hevent, heq⟩ := Option.map_eq_some_iff.1 hpair
  cases heq
  exact RuntimeEvent.connected_eq_some hevent ▸ hmem

end Hello

section Witness

open Sample

/-! ### A node says hello to both runtimes -/

/-- a signed hello of the node with key 5, which is transport peer 1 -/
def helloOf (version : UInt16) (capabilities : PeerCapabilities) : NodeHello :=
  let unsigned : NodeHello := ⟨version, (key 5).bytes, digest (key 5).bytes, [1], 64, 8, capabilities, []⟩
  { unsigned with signature := (sign (key 5) unsigned.transcript).bytes }

def goodHello : NodeHello := helloOf 1 ⟨true, true, true⟩

/-- of another version, and without capabilities -/
def otherHello : NodeHello := helloOf 2 ⟨false, false, false⟩

/-- a network manager that has accepted one connection -/
def listening : Erp.NetworkManager :=
  (((Erp.NetworkManager.new .default).spawnSession 0 false none).toOption.get (by decide +kernel)).1

/-- the remote asks for identify, says hello, and the network manager takes `Ready` -/
def setup (hello : NodeHello) : List Erp.SetupMove :=
  [.substream .identify, .substream (.nodeHello hello (.ok goodHello) (.ok ())), .taken listening 0]

def shaken : Erp.Setup :=
  (Erp.Setup.machine.replay Erp.Setup.Profiled (setup goodHello) (.start .inbound [1] none)).get (by decide +kernel)

theorem shaken_reached : Erp.Setup.machine.Reached Erp.Setup.Profiled shaken :=
  Machine.Reached.of_replay (.start ⟨_, _, _, rfl⟩) (Option.some_get _).symm

def greeted : HelloHost :=
  (HelloHost.machine.replay HelloHost.Profiled [.hello (.request [1] goodHello (some goodHello) true)] ⟨.new, [], []⟩).get
    (by decide +kernel)

theorem greeted_reached : HelloHost.machine.Reached HelloHost.Profiled greeted :=
  Machine.Reached.of_replay (.start rfl) (Option.some_get _).symm

theorem peer_connected_after_hello_of_goodHello :
    shaken.transportPeer = [1] ∧
    (∃ hello ∈ shaken.presented, hello.Profiled ∧ hello.Binds shaken.transportPeer (digest (key 5).bytes)) ∧
    ∃ t hello, some [1] = some t ∧ (t, hello) ∈ greeted.presented ∧ hello.Profiled ∧ hello.Binds t (digest (key 5).bytes) :=
  ⟨by decide +kernel,
    peer_connected_after_hello.1 shaken shaken_reached _ (mem_of_connected (by decide +kernel)),
    peer_connected_after_hello.2.1 greeted greeted_reached _ _ (mem_of_connected_pair (by decide +kernel))⟩

/-! ### A hello of another version -/

def strange : Erp.Setup :=
  (Erp.Setup.machine.replay (fun _ _ => True) (setup otherHello) (.start .inbound [1] none)).get (by decide +kernel)

def strangeHost : HelloHost :=
  (HelloHost.machine.replay (fun _ _ => True) [.hello (.request [1] otherHello (some goodHello) true)] ⟨.new, [], []⟩).get
    (by decide +kernel)

/-- the peer is connected in both runtimes, and no hello of it has version 1 or a capability -/
theorem unprofiled_hello_connects :
    (∃ σ n, Erp.Setup.machine.Reached (fun _ _ => True) σ ∧ .peerConnected n ∈ σ.reports ∧
      ¬ ∃ hello ∈ σ.presented, hello.Profiled ∧ hello.Binds σ.transportPeer n) ∧
    ∃ σ source n, HelloHost.machine.Reached (fun _ _ => True) σ ∧ (source, .peerConnected n) ∈ σ.reports ∧
      ¬ ∃ t hello, source = some t ∧ (t, hello) ∈ σ.presented ∧ hello.Profiled ∧ hello.Binds t n := by
  have hstrange : ∀ hello ∈ strange.presented, ¬ hello.Profiled := by decide +kernel
  have hhost : ∀ p ∈ strangeHost.presented, ¬ p.2.Profiled := by decide +kernel
  refine ⟨⟨strange, digest (key 5).bytes, Machine.Reached.of_replay (.start ⟨_, _, _, rfl⟩) (Option.some_get _).symm,
    mem_of_connected (by decide +kernel), ?_⟩, strangeHost, some [1], digest (key 5).bytes,
    Machine.Reached.of_replay (.start rfl) (Option.some_get _).symm, mem_of_connected_pair (by decide +kernel), ?_⟩
  · rintro ⟨hello, hmem, hprofiled, -⟩
    exact hstrange hello hmem hprofiled
  · rintro ⟨t, hello, -, hmem, hprofiled, -⟩
    exact hhost (t, hello) hmem hprofiled

end Witness

end RustProof
