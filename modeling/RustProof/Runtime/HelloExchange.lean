/-
The exchange of node hellos over a substream (`node_hello.rs`, `session.rs` and `codec/framed.rs` of erp-runtime; the local
hello of rp-runtime's `manager.rs`).

The requester negotiates `/rust-proof/node-hello/1`, writes its hello and reads the response; the answerer verifies the hello
against the transport peer it has authenticated and responds with its own. Hello and response travel as postcard in
length-prefixed frames. Both sides are processes over a duplex stream, as in `Multistream.lean`.

Results:
- `check_build`, `check_buildLocalNodeHello`: the hello of a node of either runtime passes the verifier of both exactly for
  the transport peer id of the node;
- `hello_exchange_agrees`: both sides end in every run; the answerer accepts exactly if it has authenticated the requester's
  transport peer, the requester exactly if each has authenticated the other's, and then each knows the other as its hello says.
-/
import RustProof.Runtime.Framing
import RustProof.Runtime.Handshake

namespace RustProof

/-! ## The codec -/

/-- `u16` in postcard -/
def takeU16 : Decoder UInt16 := do
  let n ← takeVarintLoop 3 3 0 0
  return UInt16.ofNat n

/-- `u32` in postcard -/
def takeU32 : Decoder UInt32 := do
  let n ← takeVarintLoop 15 5 0 0
  return UInt32.ofNat n

theorem decodes_u16 (x : UInt16) : Decodes takeU16 (varint 3 x.toNat) x := by
  have hloop := takeVarintLoop_varint 3 (by decide) 2 x.toNat 0 0 x.toNat_lt
  rw [Nat.pow_zero, Nat.mul_one, Nat.zero_add] at hloop
  have hmap := hloop.map (f := UInt16.ofNat)
  rwa [UInt16.ofNat_toNat] at hmap

theorem decodes_u32 (x : UInt32) : Decodes takeU32 (varint 5 x.toNat) x := by
  have hloop := takeVarintLoop_varint 15 (by decide) 4 x.toNat 0 0 x.toNat_lt
  rw [Nat.pow_zero, Nat.mul_one, Nat.zero_add] at hloop
  have hmap := hloop.map (f := UInt32.ofNat)
  rwa [UInt32.ofNat_toNat] at hmap

/-- `Vec<u8>` in postcard -/
def takeBytesVec : Decoder (List UInt8) := takeVec takeByte

def putBytesVec (bytes : List UInt8) : List UInt8 := putVec (fun b => [b]) bytes

theorem decodes_bytesVec {bytes : List UInt8} (h : bytes.length < 2 ^ 64) : Decodes takeBytesVec (putBytesVec bytes) bytes :=
  decodes_vec h fun b _ => decodes_byte b

namespace PeerCapabilities

def toBytes (capabilities : PeerCapabilities) : List UInt8 :=
  putBool capabilities.supportsSyncV1 ++ (putBool capabilities.supportsAnnounceV1 ++ putBool capabilities.supportsPing)

def take : Decoder PeerCapabilities := do
  let supportsSyncV1 ← takeBool
  let supportsAnnounceV1 ← takeBool
  let supportsPing ← takeBool
  return ⟨supportsSyncV1, supportsAnnounceV1, supportsPing⟩

theorem decodes (capabilities : PeerCapabilities) : Decodes take capabilities.toBytes capabilities := by
  refine Decodes.bind (decodes_bool _) (Decodes.bind (decodes_bool _) ?_)
  exact (decodes_bool capabilities.supportsPing).map

end PeerCapabilities

namespace NodeHello

def toBytes (hello : NodeHello) : List UInt8 :=
  varint 3 hello.version.toNat ++ (putBytesVec hello.nodePublicKey ++ (hello.nodePeerId.bytes ++
    (putBytesVec hello.transportPeerId ++ (varint 5 hello.maxFrameLen.toNat ++ (varint 3 hello.maxBlocksPerChunk.toNat ++
      (hello.capabilities.toBytes ++ putBytesVec hello.signature))))))

def take : Decoder NodeHello := do
  let version ← takeU16
  let nodePublicKey ← takeBytesVec
  let nodePeerId ← takeArray 32
  let transportPeerId ← takeBytesVec
  let maxFrameLen ← takeU32
  let maxBlocksPerChunk ← takeU16
  let capabilities ← PeerCapabilities.take
  let signature ← takeBytesVec
  return ⟨version, nodePublicKey, nodePeerId, transportPeerId, maxFrameLen, maxBlocksPerChunk, capabilities, signature⟩

def fromBytes (bytes : List UInt8) : Option NodeHello := (take bytes).map Prod.fst

/-- what the allocator guarantees of its vectors -/
structure Sized (hello : NodeHello) : Prop where
  nodePublicKey : hello.nodePublicKey.length < 2 ^ 64
  transportPeerId : hello.transportPeerId.length < 2 ^ 64
  signature : hello.signature.length < 2 ^ 64

/-- what fits a frame was in memory -/
theorem sized_of_length {hello : NodeHello} (h : hello.toBytes.length < 2 ^ 64) : hello.Sized := by
  have hvec (bytes : List UInt8) : bytes.length ≤ (putBytesVec bytes).length := by
    rw [putBytesVec, putVec, List.flatMap_singleton', List.length_append]
    exact Nat.le_add_left _ _
  have hkey := hvec hello.nodePublicKey
  have hpeer := hvec hello.transportPeerId
  have hsignature := hvec hello.signature
  simp only [toBytes, List.length_append] at h
  exact ⟨by omega, by omega, by omega⟩

theorem decodes {hello : NodeHello} (h : hello.Sized) : Decodes take hello.toBytes hello := by
  refine Decodes.bind (decodes_u16 _) (Decodes.bind (decodes_bytesVec h.nodePublicKey) ?_)
  refine Decodes.bind (decodes_array _) (Decodes.bind (decodes_bytesVec h.transportPeerId) ?_)
  refine Decodes.bind (decodes_u32 _) (Decodes.bind (decodes_u16 _) (Decodes.bind hello.capabilities.decodes ?_))
  exact (decodes_bytesVec h.signature).map

theorem fromBytes_toBytes {hello : NodeHello} (h : hello.Sized) : fromBytes hello.toBytes = some hello := by
  have hread := decodes h []
  rw [List.append_nil] at hread
  rw [fromBytes, hread]
  rfl

end NodeHello

namespace NodeHelloRejectReason

/-- the index of the variant -/
def index : NodeHelloRejectReason → ℕ
  | versionMismatch => 0
  | invalidSignature => 1
  | peerIdMismatch => 2
  | transportBindingMismatch => 3
  | unsupportedRequiredProtocol => 4

def ofIndex : ℕ → Option NodeHelloRejectReason
  | 0 => some versionMismatch
  | 1 => some invalidSignature
  | 2 => some peerIdMismatch
  | 3 => some transportBindingMismatch
  | 4 => some unsupportedRequiredProtocol
  | _ => none

def take : Decoder NodeHelloRejectReason := do
  let tag ← takeTag
  accept (ofIndex tag)

theorem decodes (reason : NodeHelloRejectReason) : Decodes take (putTag reason.index) reason := by
  have htag : Decodes takeTag (putTag reason.index) reason.index := decodes_tag (by cases reason <;> decide)
  have haccept : Decodes (accept (ofIndex reason.index)) [] reason := decodes_accept (by cases reason <;> rfl)
  have hboth := htag.bind (f := fun tag => accept (ofIndex tag)) haccept
  rwa [List.append_nil] at hboth

end NodeHelloRejectReason

namespace NodeHelloResponse

def toBytes (response : NodeHelloResponse) : List UInt8 :=
  putBool response.accepted ++ (response.remote.toBytes ++
    putOption (fun reason => putTag reason.index) response.rejectReason)

def take : Decoder NodeHelloResponse := do
  let accepted ← takeBool
  let remote ← NodeHello.take
  let rejectReason ← takeOption NodeHelloRejectReason.take
  return ⟨accepted, remote, rejectReason⟩

def fromBytes (bytes : List UInt8) : Option NodeHelloResponse := (take bytes).map Prod.fst

theorem decodes {response : NodeHelloResponse} (h : response.remote.Sized) :
    Decodes take response.toBytes response := by
  refine Decodes.bind (decodes_bool _) (Decodes.bind (NodeHello.decodes h) ?_)
  exact (decodes_option NodeHelloRejectReason.decodes response.rejectReason).map

theorem fromBytes_toBytes {response : NodeHelloResponse} (h : response.remote.Sized) :
    fromBytes response.toBytes = some response := by
  have hread := decodes h []
  rw [List.append_nil] at hread
  rw [fromBytes, hread]
  rfl

end NodeHelloResponse

/-! ## Building a hello -/

section Build

variable [Crypto] [Signing]

/-- `supports_sync_v1`, `supports_announce_v1` and `supports_ping` -/
def PeerCapabilities.all : PeerCapabilities := ⟨true, true, true⟩

/-- a hello of version 1 without its signature -/
def NodeHello.unsigned (nodePublicKey : List UInt8) (nodePeerId : PeerId) (transportPeerId : List UInt8) (maxFrameLen : UInt32)
    (maxBlocksPerChunk : UInt16) : NodeHello :=
  ⟨1, nodePublicKey, nodePeerId, transportPeerId, maxFrameLen, maxBlocksPerChunk, .all, []⟩

/-- `build_node_hello` of erp-runtime, with `NodeHelloBuilder::build` -/
def Erp.buildNodeHello [Libp2pIdentity] (node : Erp.IdentityManager) (transport : Erp.TransportIdentityManager)
    (maxFrameLen : UInt32) (maxBlocksPerChunk : UInt16) : Except ContractError NodeHello := do
  let hello := NodeHello.unsigned node.publicKey node.peerId transport.peerIdBytes maxFrameLen maxBlocksPerChunk
  let signature ← node.sign hello.transcript
  return { hello with signature := signature }

/-- `build_local_node_hello` of rp-runtime -/
def HostIdentities.buildLocalNodeHello [Libp2pIdentity] (ids : HostIdentities) (maxFrameLen : UInt32)
    (maxBlocksPerChunk : UInt16) : NodeHello :=
  let hello := NodeHello.unsigned ids.node.publicKey ids.node.peerId ids.peerIdBytes maxFrameLen maxBlocksPerChunk
  { hello with signature := ids.node.buildSignature hello.transcript }

omit [Signing] in
/-- a hello with the hash of its key and a signature under the key binds its node to its transport peer -/
theorem NodeHello.check_signed (hello : NodeHello) {verifyingKey : VerifyingKey} {signature : Signature}
    (hkey : hello.nodePublicKey = (verifyingKeyToBytes verifyingKey).bytes) (hpeer : hello.nodePeerId = sha256 hello.nodePublicKey)
    (hsignature : hello.signature = (signatureToBytes signature).bytes)
    (hverify : verify verifyingKey hello.transcript signature = true) (t : List UInt8) :
    hello.check t = .ok () ↔ hello.transportPeerId = t := by
  rw [hello.check_iff]
  constructor
  · exact fun h => h.transport
  · rintro rfl
    refine ⟨rfl, hpeer, rfl, verifyingKeyToBytes verifyingKey, verifyingKey, signature, ?_, Crypto.key_round_trip verifyingKey,
      ?_, hverify⟩
    · rw [hkey]
      exact U8Array.ofList?_bytes _
    · rw [hsignature, U8Array.ofList?_bytes, Option.bind_some, Crypto.signature_round_trip]

variable [Libp2pIdentity]

/-- the hello of a node passes for its transport peer and for no other -/
theorem Erp.check_build {node : Erp.IdentityManager} {transport : Erp.TransportIdentityManager} {maxFrameLen : UInt32}
    {maxBlocksPerChunk : UInt16} {hello : NodeHello} (hnode : node.WellFormed)
    (h : Erp.buildNodeHello node transport maxFrameLen maxBlocksPerChunk = .ok hello) (t : List UInt8) :
    hello.check t = .ok () ↔ transport.peerIdBytes = t := by
  unfold Erp.buildNodeHello at h
  dsimp only at h
  cases hsign : node.sign (NodeHello.unsigned node.publicKey node.peerId transport.peerIdBytes maxFrameLen
    maxBlocksPerChunk).transcript with
  | error e =>
    rw [hsign] at h
    cases h
  | ok bytes =>
    rw [hsign] at h
    cases h
    obtain ⟨signature, rfl, hverify⟩ := hnode.signs _ _ hsign
    exact NodeHello.check_signed { NodeHello.unsigned node.publicKey node.peerId transport.peerIdBytes maxFrameLen
      maxBlocksPerChunk with signature := (signatureToBytes signature).bytes } hnode.publicKey hnode.peerId rfl hverify t

theorem HostIdentities.check_buildLocalNodeHello (signingKey : SigningKey) (keypair : Keypair) (maxFrameLen : UInt32)
    (maxBlocksPerChunk : UInt16) (t : List UInt8) :
    ((ofKeys signingKey keypair).buildLocalNodeHello maxFrameLen maxBlocksPerChunk).check t = .ok () ↔
      (ofKeys signingKey keypair).peerIdBytes = t :=
  NodeHello.check_signed ((ofKeys signingKey keypair).buildLocalNodeHello maxFrameLen maxBlocksPerChunk) rfl rfl rfl
    (Signing.verify_sign signingKey _) t

end Build

/-! ## The exchange -/

namespace Erp

/-- the errors of session setup -/
inductive SetupError where
  | contract (error : ContractError)
  | runtime (error : RuntimeError)

section Exchange

variable [Crypto] [UnsignedVarint]

/-- `NODE_HELLO_PROTOCOL` -/
def nodeHelloProtocol : String := "/rust-proof/node-hello/1"

/-- `payload` is the value in postcard -/
def writePostcardFrame (payload : List UInt8) (maxLen : UInt32) : StreamM RuntimeError Unit := do
  let frame ← (encodeLengthPrefixed payload maxLen).mapError RuntimeError.networkError
  ExceptT.lift (Proc.writeAll frame)

def readPostcardFrame {α : Type} (decode : List UInt8 → Option α) (maxLen : UInt32) : StreamM RuntimeError α := do
  let frame ← (readLengthPrefixedFrame maxLen).adapt RuntimeError.networkError
  let (_, payload) ← (decodeLengthPrefix frame maxLen).mapError RuntimeError.networkError
  match decode payload with
  | none => throw (.networkError ⟨.invalidData, "failed to decode postcard payload"⟩)
  | some a => return a

/-- `localHello` is what `build_node_hello` returns -/
def requestNodeHello (localHello : Except ContractError NodeHello) (maxFrameLen : UInt32)
    (authenticatedTransportPeer : List UInt8) : StreamM SetupError HandshakeOutcome := do
  (dialerSelect nodeHelloProtocol).adapt SetupError.runtime
  let hello ← localHello.mapError SetupError.contract
  (writePostcardFrame hello.toBytes maxFrameLen).adapt SetupError.runtime
  let response ← (readPostcardFrame NodeHelloResponse.fromBytes maxFrameLen).adapt SetupError.runtime
  if response.accepted = false then return .rejected
  else
    match NodeHelloVerifier.verify response.remote authenticatedTransportPeer with
    | .ok verifiedPeer => return .established verifiedPeer
    | .error _ => return .rejected

/-- `answer_node_hello` on a substream -/
def answerNodeHelloOn (localHello : Except ContractError NodeHello) (maxFrameLen : UInt32)
    (authenticatedTransportPeer : List UInt8) : StreamM SetupError HandshakeOutcome := do
  let remoteHello ← (readPostcardFrame NodeHello.fromBytes maxFrameLen).adapt SetupError.runtime
  match NodeHelloVerifier.verify remoteHello authenticatedTransportPeer with
  | .error e =>
    let hello ← localHello.mapError SetupError.contract
    -- that the rejection cannot be written is only logged
    ExceptT.lift ((writePostcardFrame (NodeHelloResponse.mk false hello (some e.rejectReason)).toBytes maxFrameLen).run.bind
      fun _ => .done ())
    return .rejected
  | .ok verifiedPeer =>
    let hello ← localHello.mapError SetupError.contract
    (writePostcardFrame (NodeHelloResponse.mk true hello none).toBytes maxFrameLen).adapt SetupError.runtime
    return .established verifiedPeer

/-- a substream of the requester, on the side of a listener that supports the given protocols -/
def serveNodeHello (supported : List String) (localHello : Except ContractError NodeHello) (maxFrameLen : UInt32)
    (authenticatedTransportPeer : List UInt8) : StreamM SetupError (Option HandshakeOutcome) := do
  let protocol ← (listenerSelect supported).adapt SetupError.runtime
  if protocol = nodeHelloProtocol then
    let outcome ← answerNodeHelloOn localHello maxFrameLen authenticatedTransportPeer
    return some outcome
  else return none

/-! ## Both sides -/

open Duplex (Party)
open Proc (puts gets)
open ReadM (frameBytes encodeLengthPrefixed_eq)

section Frames

variable {payload : List UInt8} {maxLen : UInt32}

omit [Crypto] in
theorem writePostcardFrame_ends (hlen : payload.length ≤ maxLen.toNat) :
    Ends (writePostcardFrame payload maxLen) (puts (frameBytes payload)) (.ok ()) := by
  rw [writePostcardFrame, encodeLengthPrefixed_eq hlen]
  exact Ends.bind_silent (Ends.ofExcept _) (Ends.lift (.writeAll _))

omit [Crypto] in
theorem readPostcardFrame_ends {α : Type} {decode : List UInt8 → Option α} {a : α} (hdecode : decode payload = some a)
    (hlen : payload.length ≤ maxLen.toNat) :
    Ends (readPostcardFrame decode maxLen) (gets (frameBytes payload)) (.ok a) := by
  rw [readPostcardFrame, ← List.append_nil (gets _)]
  refine Ends.bind (Ends.adapt _ (readLengthPrefixedFrame_ends hlen)) ?_
  rw [decodeLengthPrefix_frame hlen]
  refine Ends.bind_silent (Ends.ofExcept _) ?_
  dsimp only
  rw [hdecode]
  exact .pure a

end Frames

/-- what the hello says of its sender -/
def peerOf (hello : NodeHello) : VerifiedPeer :=
  ⟨hello.nodePeerId, hello.transportPeerId, hello.maxFrameLen, hello.maxBlocksPerChunk⟩

omit [UnsignedVarint] in
theorem NodeHelloVerifier.verify_ok {hello : NodeHello} {t : List UInt8} (h : hello.check t = .ok ()) :
    NodeHelloVerifier.verify hello t = .ok (peerOf hello) := by
  rw [NodeHelloVerifier.verify, h]
  rfl

omit [UnsignedVarint] in
theorem NodeHelloVerifier.verify_error {hello : NodeHello} {t : List UInt8} (h : hello.check t ≠ .ok ()) :
    ∃ e, NodeHelloVerifier.verify hello t = .error e := by
  rw [NodeHelloVerifier.verify]
  cases hcheck : hello.check t with
  | error e => exact ⟨e, rfl⟩
  | ok _ => exact absurd hcheck h

/-! ## Both sides -/

/-- the lines by which both sides agree on the protocol -/
def selected (supported : List String) : List (Party × List UInt8) :=
  [(.left, frameOf multistreamV1), (.right, frameOf multistreamV1), (.left, frameOf nodeHelloProtocol),
    (.right, frameOf (selection supported nodeHelloProtocol))]

/-- a response with the hello has room in a frame -/
structure FitsFrame (hello : NodeHello) (maxLen : UInt32) : Prop where
  fits : hello.toBytes.length + 3 ≤ maxLen.toNat

omit [Crypto] [UnsignedVarint] in
theorem FitsFrame.length_le {hello : NodeHello} {maxLen : UInt32} (h : FitsFrame hello maxLen) :
    hello.toBytes.length ≤ maxLen.toNat :=
  (Nat.le_add_right _ 3).trans h.fits

omit [Crypto] [UnsignedVarint] in
theorem FitsFrame.sized {hello : NodeHello} {maxLen : UInt32} (h : FitsFrame hello maxLen) : hello.Sized :=
  NodeHello.sized_of_length (h.length_le.trans_lt (maxLen.toNat_lt.trans (by decide)))

omit [Crypto] [UnsignedVarint] in
theorem FitsFrame.response_le {hello : NodeHello} {maxLen : UInt32} (h : FitsFrame hello maxLen) (accepted : Bool)
    (reason : Option NodeHelloRejectReason) :
    (NodeHelloResponse.mk accepted hello reason).toBytes.length ≤ maxLen.toNat := by
  have hreason : (putOption (fun reason => putTag (NodeHelloRejectReason.index reason)) reason).length ≤ 2 := by
    cases reason with
    | none => decide
    | some reason => cases reason <;> decide +kernel
  have hflag : (putBool accepted).length = 1 := by cases accepted <;> rfl
  have hfits := h.fits
  simp only [NodeHelloResponse.toBytes, List.length_append, hflag]
  omega

section Messages

variable {supported : List String} {hello hello' : NodeHello} {maxFrameLen maxFrameLen' : UInt32}

omit [Crypto] [UnsignedVarint] in
theorem nodeHelloProtocol_valid : ValidName nodeHelloProtocol := ⟨by decide, by decide, by decide⟩

omit [Crypto] in
theorem dialerSelect_selected (hmem : nodeHelloProtocol ∈ supported) :
    Ends (dialerSelect nodeHelloProtocol) (Party.left.trace (selected supported)) (.ok ()) := by
  have hends := dialerSelect_ends nodeHelloProtocol_valid supported
  rwa [dialerResult, if_pos hmem] at hends

omit [Crypto] in
theorem listenerSelect_selected (hmem : nodeHelloProtocol ∈ supported) :
    Ends (listenerSelect supported) (Party.right.trace (selected supported)) (.ok nodeHelloProtocol) := by
  have hends := listenerSelectOptional_ends nodeHelloProtocol_valid supported
  rw [listenerResult, if_pos hmem] at hends
  rw [← List.append_nil (Party.right.trace _)]
  exact Ends.bind hends (.pure nodeHelloProtocol)

/-- what the requester makes of a response -/
def outcomeOf (response : NodeHelloResponse) (t : List UInt8) : HandshakeOutcome :=
  if response.accepted = false then .rejected
  else
    match NodeHelloVerifier.verify response.remote t with
    | .ok verifiedPeer => .established verifiedPeer
    | .error _ => .rejected

omit [UnsignedVarint] in
theorem outcomeOf_eq {accepted : Bool} (reason : Option NodeHelloRejectReason) {t : List UInt8} {p q : Prop} [Decidable p]
    [Decidable q] (hp : accepted = true ↔ p) (hq : hello'.check t = .ok () ↔ q) :
    outcomeOf ⟨accepted, hello', reason⟩ t = if p ∧ q then .established (peerOf hello') else .rejected := by
  unfold outcomeOf
  dsimp only
  split_ifs with hrejected hboth hboth
  · exact absurd (hp.2 hboth.1) (by rw [hrejected]; exact Bool.false_ne_true)
  · rfl
  · rw [NodeHelloVerifier.verify_ok (hq.2 hboth.2)]
  · have haccepted : accepted = true := Bool.not_eq_false _ ▸ hrejected
    have hcheck : hello'.check t ≠ .ok () := fun hcheck => hboth ⟨hp.1 haccepted, hq.1 hcheck⟩
    obtain ⟨e, he⟩ := NodeHelloVerifier.verify_error hcheck
    rw [he]

theorem requestNodeHello_ends (hmem : nodeHelloProtocol ∈ supported) (hfits : FitsFrame hello maxFrameLen)
    (hfits' : FitsFrame hello' maxFrameLen) (accepted : Bool) (reason : Option NodeHelloRejectReason) (t : List UInt8) :
    Ends (requestNodeHello (.ok hello) maxFrameLen t)
      (Party.left.trace (selected supported ++ [(.left, frameBytes hello.toBytes),
        (.right, frameBytes (NodeHelloResponse.mk accepted hello' reason).toBytes)]))
      (.ok (outcomeOf ⟨accepted, hello', reason⟩ t)) := by
  have hread : NodeHelloResponse.fromBytes (NodeHelloResponse.mk accepted hello' reason).toBytes =
      some ⟨accepted, hello', reason⟩ := NodeHelloResponse.fromBytes_toBytes hfits'.sized
  rw [Party.trace, List.flatMap_append]
  refine Ends.bind (Ends.adapt _ (dialerSelect_selected hmem)) ?_
  refine Ends.bind_silent (Ends.ofExcept _) ?_
  refine Ends.bind (Ends.adapt _ (writePostcardFrame_ends hfits.length_le)) ?_
  refine Ends.bind (Ends.adapt _ (readPostcardFrame_ends hread (hfits'.response_le _ _))) ?_
  unfold outcomeOf
  split_ifs
  · exact .pure _
  · cases NodeHelloVerifier.verify hello' t with
    | error e => exact .pure _
    | ok peer => exact .pure _

/-- the answerer's outcome, and its response -/
theorem serveNodeHello_ends (hmem : nodeHelloProtocol ∈ supported) (hfits : FitsFrame hello maxFrameLen')
    (hfits' : FitsFrame hello' maxFrameLen') (t : List UInt8) : ∃ accepted reason,
    (accepted = true ↔ hello.check t = .ok ()) ∧
    Ends (serveNodeHello supported (.ok hello') maxFrameLen' t)
      (Party.right.trace (selected supported ++ [(.left, frameBytes hello.toBytes),
        (.right, frameBytes (NodeHelloResponse.mk accepted hello' reason).toBytes)]))
      (.ok (some (if accepted then .established (peerOf hello) else .rejected))) := by
  have hread := NodeHello.fromBytes_toBytes hfits.sized
  -- the answerer after the negotiation
  have hanswer : ∃ accepted reason, (accepted = true ↔ hello.check t = .ok ()) ∧
      Ends (answerNodeHelloOn (.ok hello') maxFrameLen' t)
        (gets (frameBytes hello.toBytes) ++ puts (frameBytes (NodeHelloResponse.mk accepted hello' reason).toBytes))
        (.ok (if accepted then .established (peerOf hello) else .rejected)) := by
    by_cases hcheck : hello.check t = .ok ()
    · refine ⟨true, none, iff_of_true rfl hcheck, ?_⟩
      refine Ends.bind (Ends.adapt _ (readPostcardFrame_ends hread hfits.length_le)) ?_
      rw [NodeHelloVerifier.verify_ok hcheck, ← List.append_nil (puts _)]
      refine Ends.bind_silent (Ends.ofExcept _) ?_
      exact Ends.bind (Ends.adapt _ (writePostcardFrame_ends (hfits'.response_le _ _))) (.pure _)
    · obtain ⟨e, he⟩ := NodeHelloVerifier.verify_error hcheck
      refine ⟨false, some e.rejectReason, iff_of_false nofun hcheck, ?_⟩
      refine Ends.bind (Ends.adapt _ (readPostcardFrame_ends hread hfits.length_le)) ?_
      rw [he, ← List.append_nil (puts _)]
      refine Ends.bind_silent (Ends.ofExcept _) ?_
      refine Ends.bind (Ends.lift (a := ()) ?_) (.pure _)
      rw [← List.append_nil (puts _)]
      exact Proc.Runs.seq (writePostcardFrame_ends (hfits'.response_le _ _)) (.refl _)
  obtain ⟨accepted, reason, hiff, hanswer⟩ := hanswer
  refine ⟨accepted, reason, hiff, ?_⟩
  rw [Party.trace, List.flatMap_append]
  refine Ends.bind (Ends.adapt _ (listenerSelect_selected hmem)) ?_
  rw [if_pos rfl, List.flatMap_cons, List.flatMap_cons, List.flatMap_nil, List.append_nil,
    ← List.append_nil (_ ++ _)]
  exact Ends.bind hanswer (.pure _)

end Messages

section Nodes

variable [Signing] [Libp2pIdentity] {node node' : IdentityManager} {transport transport' : TransportIdentityManager}
  {maxFrameLen maxFrameLen' : UInt32} {maxBlocksPerChunk maxBlocksPerChunk' : UInt16} {hello hello' : NodeHello}

omit [UnsignedVarint] in
/-- the hello of a node says what the node is -/
theorem peerOf_build (h : buildNodeHello node transport maxFrameLen maxBlocksPerChunk = .ok hello) :
    peerOf hello = ⟨node.peerId, transport.peerIdBytes, maxFrameLen, maxBlocksPerChunk⟩ := by
  unfold buildNodeHello at h
  dsimp only at h
  cases hsign : node.sign (NodeHello.unsigned node.publicKey node.peerId transport.peerIdBytes maxFrameLen
    maxBlocksPerChunk).transcript with
  | error e =>
    rw [hsign] at h
    cases h
  | ok bytes =>
    rw [hsign] at h
    cases h
    rfl

/-- the requester with the answerer's authenticated peer `t'`, and the answerer with the requester's, `t` -/
def helloExchange (node node' : IdentityManager) (transport transport' : TransportIdentityManager)
    (maxFrameLen maxFrameLen' : UInt32) (maxBlocksPerChunk maxBlocksPerChunk' : UInt16) (supported : List String)
    (t t' : List UInt8) : Duplex UInt8 (Except SetupError HandshakeOutcome) (Except SetupError (Option HandshakeOutcome)) :=
  ⟨requestNodeHello (buildNodeHello node transport maxFrameLen maxBlocksPerChunk) maxFrameLen t',
    serveNodeHello supported (buildNodeHello node' transport' maxFrameLen' maxBlocksPerChunk') maxFrameLen' t, [], []⟩

/-- **The hello exchange binds nodes to transport peers.** Let two nodes with well-formed identities exchange hellos that fit
the frames of both, whatever transport peers they have authenticated. Then there is a bound on the length of all runs, and in
every state in which neither side can go on both have returned and nothing is unread: the answerer has established the
requester exactly if it has authenticated the requester's transport peer, and the requester the answerer exactly if besides it
has authenticated the answerer's; each then knows the other's node id, transport peer and limits. -/
theorem hello_exchange_agrees (hnode : node.WellFormed) (hnode' : node'.WellFormed)
    (hbuild : buildNodeHello node transport maxFrameLen maxBlocksPerChunk = .ok hello)
    (hbuild' : buildNodeHello node' transport' maxFrameLen' maxBlocksPerChunk' = .ok hello')
    (hfits : ∀ h ∈ [hello, hello'], ∀ maxLen ∈ [maxFrameLen, maxFrameLen'], FitsFrame h maxLen) {supported : List String}
    (hmem : nodeHelloProtocol ∈ supported) (t t' : List UInt8) :
    ∃ n, ∀ k σ, (Duplex.machine (helloExchange node node' transport transport' maxFrameLen maxFrameLen' maxBlocksPerChunk
          maxBlocksPerChunk' supported t t')).Steps k
        (helloExchange node node' transport transport' maxFrameLen maxFrameLen' maxBlocksPerChunk maxBlocksPerChunk' supported
          t t') σ →
      k ≤ n ∧
      ((Duplex.machine (helloExchange node node' transport transport' maxFrameLen maxFrameLen' maxBlocksPerChunk
          maxBlocksPerChunk' supported t t')).Final σ →
        σ = ⟨.done (.ok (if transport.peerIdBytes = t ∧ transport'.peerIdBytes = t' then
              .established ⟨node'.peerId, transport'.peerIdBytes, maxFrameLen', maxBlocksPerChunk'⟩ else .rejected)),
            .done (.ok (some (if transport.peerIdBytes = t then
              .established ⟨node.peerId, transport.peerIdBytes, maxFrameLen, maxBlocksPerChunk⟩ else .rejected))), [], []⟩) := by
  have hcheck := check_build hnode hbuild t
  have hcheck' := check_build hnode' hbuild' t'
  obtain ⟨accepted, reason, haccepted, hserve⟩ := serveNodeHello_ends hmem
    (hfits hello (by simp) maxFrameLen' (by simp)) (hfits hello' (by simp) maxFrameLen' (by simp)) t
  have hrequest := requestNodeHello_ends hmem (hfits hello (by simp) maxFrameLen (by simp))
    (hfits hello' (by simp) maxFrameLen (by simp)) accepted reason t'
  have houtcome := outcomeOf_eq reason (haccepted.trans hcheck) hcheck'
  rw [peerOf_build hbuild'] at houtcome
  have hanswer : (if accepted then HandshakeOutcome.established (peerOf hello) else .rejected) =
      if transport.peerIdBytes = t then
        .established ⟨node.peerId, transport.peerIdBytes, maxFrameLen, maxBlocksPerChunk⟩ else .rejected := by
    rw [← peerOf_build hbuild]
    exact if_congr (haccepted.trans hcheck) rfl rfl
  rw [houtcome] at hrequest
  rw [hanswer] at hserve
  rw [helloExchange, hbuild, hbuild']
  obtain ⟨n, hn⟩ := Duplex.steps_conversation hrequest hserve
  refine ⟨n, fun k σ hσ => ?_⟩
  obtain ⟨j, hj, hrest⟩ := hn.complete (Duplex.commutes _) (Duplex.final_done _ _ _ _ _) hσ
  exact ⟨hj ▸ Nat.le_add_right k j, fun h => hrest.eq_of_final h⟩

end Nodes

end Exchange

section Witness

open Sample

/-- the hello of the node with signing key `bytes32 x` and transport key `key k` -/
def sampleHello (x k : UInt8) (maxFrameLen : UInt32) (maxBlocksPerChunk : UInt16) : NodeHello :=
  let hello := NodeHello.unsigned (keyOf (bytes32 x)).bytes (digest (keyOf (bytes32 x)).bytes) (key k).bytes maxFrameLen
    maxBlocksPerChunk
  { hello with signature := (sign (keyOf (bytes32 x)) hello.transcript).bytes }

/-- each has authenticated the other -/
theorem hello_exchange_agrees_of_open :
    letI := leb128
    ∃ n, ∀ k σ, (Duplex.machine (helloExchange (.fromSoftwareSigningKey (bytes32 1)) (.fromSoftwareSigningKey (bytes32 2))
          (transportIdentity (key 8)) (transportIdentity (key 9)) 1024 512 8 4 [nodeHelloProtocol] (key 8).bytes
          (key 9).bytes)).Steps k
        (helloExchange (.fromSoftwareSigningKey (bytes32 1)) (.fromSoftwareSigningKey (bytes32 2)) (transportIdentity (key 8))
          (transportIdentity (key 9)) 1024 512 8 4 [nodeHelloProtocol] (key 8).bytes (key 9).bytes) σ →
      k ≤ n ∧
      ((Duplex.machine (helloExchange (.fromSoftwareSigningKey (bytes32 1)) (.fromSoftwareSigningKey (bytes32 2))
          (transportIdentity (key 8)) (transportIdentity (key 9)) 1024 512 8 4 [nodeHelloProtocol] (key 8).bytes
          (key 9).bytes)).Final σ →
        σ = ⟨.done (.ok (if (transportIdentity (key 8)).peerIdBytes = (key 8).bytes ∧
                (transportIdentity (key 9)).peerIdBytes = (key 9).bytes then
              .established ⟨(IdentityManager.fromSoftwareSigningKey (bytes32 2)).peerId,
                (transportIdentity (key 9)).peerIdBytes, 512, 4⟩ else .rejected)),
            .done (.ok (some (if (transportIdentity (key 8)).peerIdBytes = (key 8).bytes then
              .established ⟨(IdentityManager.fromSoftwareSigningKey (bytes32 1)).peerId,
                (transportIdentity (key 8)).peerIdBytes, 1024, 8⟩ else .rejected))), [], []⟩) := by
  let _ := leb128
  have hbuild : buildNodeHello (.fromSoftwareSigningKey (bytes32 1)) (transportIdentity (key 8)) 1024 8 =
      .ok (sampleHello 1 8 1024 8) := rfl
  have hbuild' : buildNodeHello (.fromSoftwareSigningKey (bytes32 2)) (transportIdentity (key 9)) 512 4 =
      .ok (sampleHello 2 9 512 4) := rfl
  refine hello_exchange_agrees (IdentityManager.wellFormed_software (bytes32 1))
    (IdentityManager.wellFormed_software (bytes32 2)) hbuild hbuild' ?_ (List.mem_singleton.2 rfl) (key 8).bytes (key 9).bytes
  have hshort : (sampleHello 1 8 1024 8).toBytes.length + 3 ≤ 512 ∧ (sampleHello 2 9 512 4).toBytes.length + 3 ≤ 512 := by
    decide +kernel
  have hlimit : ∀ maxLen ∈ [(1024 : UInt32), 512], 512 ≤ maxLen.toNat := by simp
  intro h hmem maxLen hmax
  rcases List.mem_pair.1 hmem with rfl | rfl
  · exact ⟨hshort.1.trans (hlimit maxLen hmax)⟩
  · exact ⟨hshort.2.trans (hlimit maxLen hmax)⟩

end Witness

end Erp

end RustProof
