/-
The Noise handshake of erp-runtime (`transport/noise.rs`, and the first part of `establish_session` in `session.rs`).

A connection is secured in two steps: both sides agree on `/noise` by multistream, then run the pattern XX. The payload of
the second and third message is the sender's libp2p public key with a signature over the Noise static key the sender made
for this connection; the receiver checks it against the static key the handshake has shown. Both sides are processes over
a duplex stream (`Lib/Duplex`), so every interleaving and every way to cut the stream is a run of theirs.

The handshake states are those of the crate `snow`: a parameter, with what XX is documented to do as its law.

Results:
- `secured_agree`: two nodes that dial and accept end in every run, each with the other's transport identity and with
  transport states that fit together, unless the listener is not the peer the dialer expected;
- `secured_authentic`: whatever is on the other end of the stream, a side that succeeds holds a signature of the identity
  it reports over the static key of its session, and a dialer that expects a peer succeeds with no other.
-/
import RustProof.Runtime.Hello
import RustProof.Runtime.Identity
import RustProof.Runtime.Multistream
import RustProof.Runtime.NoisePipe
import RustProof.Runtime.Protobuf

namespace RustProof

/-- `snow::Keypair` -/
structure SnowKeypair where
  privateKey : List UInt8
  publicKey : List UInt8

/-- `snow::TransportState`: the cipher states of both directions, and the static key of the other side -/
structure SnowTransport where
  outgoing : Snow
  incoming : Snow
  remoteStatic : Option (List UInt8)

/-- the two transport states belong to one session -/
def SnowTransport.Fits (t t' : SnowTransport) : Prop := t.outgoing = t'.incoming ∧ t.incoming = t'.outgoing

/-- `NOISE_PROTOCOL_NAME` -/
def noiseProtocolName : String := "Noise_XX_25519_ChaChaPoly_SHA256"

/-- the handshake states of the crate `snow` -/
class SnowHandshake where
  NoiseParams : Type
  /-- what the generator of random numbers gives to one side -/
  Randomness : Type
  HandshakeState : Type
  parse : String → Option NoiseParams
  generateKeypair : NoiseParams → Randomness → Except String SnowKeypair
  /-- `build_initiator` or `build_responder`, with a local private key -/
  build : NoiseParams → (initiator : Bool) → (localPrivateKey : List UInt8) → Randomness → Except String HandshakeState
  /-- the message, into a buffer of 65535 bytes -/
  writeMessage : HandshakeState → (payload : List UInt8) → Except String (List UInt8 × HandshakeState)
  /-- the payload -/
  readMessage : HandshakeState → (message : List UInt8) → Except String (List UInt8 × HandshakeState)
  getRemoteStatic : HandshakeState → Option (List UInt8)
  intoTransportMode : HandshakeState → Except String SnowTransport
  message_fits : ∀ {h p m h'}, writeMessage h p = .ok (m, h') → m.length ≤ 65535
  /-- a static key that was read stays -/
  write_static : ∀ {h p m h' s}, writeMessage h p = .ok (m, h') → getRemoteStatic h = some s → getRemoteStatic h' = some s
  transport_static : ∀ {h t}, intoTransportMode h = .ok t → t.remoteStatic = getRemoteStatic h
  /-- `-> e`, `<- e, ee, s, es`, `-> s, se`: with an initiator and a responder, payloads with room for 96 bytes of
  handshake arrive, each side reads the other's static key, and the transport states fit together -/
  xx : ∀ {params rng rng' k k' i r p₁ p₂ p₃}, parse noiseProtocolName = some params →
    generateKeypair params rng = .ok k → generateKeypair params rng' = .ok k' →
    build params true k.privateKey rng = .ok i → build params false k'.privateKey rng' = .ok r →
    p₁.length + 96 ≤ 65535 → p₂.length + 96 ≤ 65535 → p₃.length + 96 ≤ 65535 →
    ∃ m₁ m₂ m₃ i₁ i₂ i₃ r₁ r₂ r₃ t t',
      writeMessage i p₁ = .ok (m₁, i₁) ∧ readMessage r m₁ = .ok (p₁, r₁) ∧
      writeMessage r₁ p₂ = .ok (m₂, r₂) ∧ readMessage i₁ m₂ = .ok (p₂, i₂) ∧ getRemoteStatic i₂ = some k'.publicKey ∧
      writeMessage i₂ p₃ = .ok (m₃, i₃) ∧ readMessage r₂ m₃ = .ok (p₃, r₃) ∧ getRemoteStatic r₃ = some k.publicKey ∧
      intoTransportMode i₃ = .ok t ∧ intoTransportMode r₃ = .ok t' ∧ t.Fits t'

export SnowHandshake (Randomness HandshakeState)

namespace Erp

section Handshake

variable [Crypto] [Signing] [Libp2pIdentity] [QuickProtobuf] [SnowHandshake]

/-! ## The handshake -/

/-- `NOISE_PROTOCOL` -/
def noiseProtocol : String := "/noise"

/-- `STATIC_KEY_DOMAIN` -/
def staticKeyDomain : String := "noise-libp2p-static-key:"

/-- `LocalStaticKeypair` -/
abbrev LocalStaticKeypair := SnowKeypair

def noiseToRuntimeError (error : String) : RuntimeError := .networkError (noiseToIoError error)

/-- what is signed for a static key -/
def signatureInput (staticPublicKey : List UInt8) : List UInt8 := asBytes staticKeyDomain ++ staticPublicKey

def parseNoiseParams : Except RuntimeError (SnowHandshake.NoiseParams) :=
  match SnowHandshake.parse noiseProtocolName with
  | none => .error (.config "invalid noise protocol parameters")
  | some params => .ok params

def generateLocalStaticKeypair (rng : Randomness) : Except RuntimeError LocalStaticKeypair := do
  let params ← parseNoiseParams
  (SnowHandshake.generateKeypair params rng).mapError noiseToRuntimeError

def buildHandshakeState (initiator : Bool) (localPrivateKey : List UInt8) (rng : Randomness) :
    Except RuntimeError HandshakeState := do
  let params ← parseNoiseParams
  (SnowHandshake.build params initiator localPrivateKey rng).mapError noiseToRuntimeError

def buildLocalIdentityPayload (localStaticPublicKey : List UInt8) (identity : TransportIdentityManager) :
    Except RuntimeError NoiseHandshakePayload := do
  let identitySig ← identity.sign (signatureInput localStaticPublicKey)
  return ⟨identity.publicKeyProtobufBytes, identitySig, none⟩

def verifyRemoteIdentity (handshake : HandshakeState) (payload : NoiseHandshakePayload) : Except RuntimeError PublicKey :=
  match SnowHandshake.getRemoteStatic handshake with
  | none => .error (.config "noise handshake did not expose a remote static key")
  | some remoteStaticPublicKey =>
    if payload.identityKey = [] then .error (.config "noise handshake payload is missing a transport public key")
    else if payload.identitySig = [] then .error (.config "noise handshake payload is missing a transport signature")
    else
      match Libp2pIdentity.tryDecodeProtobuf payload.identityKey with
      | none => .error (.crypto "noise handshake payload contains an invalid transport public key")
      | some publicKey =>
        if Libp2pIdentity.verify publicKey (signatureInput remoteStaticPublicKey) payload.identitySig then .ok publicKey
        else .error (.config "noise handshake transport signature verification failed")

def sendHandshakePayload (handshake : HandshakeState) (payload : NoiseHandshakePayload) :
    StreamM RuntimeError HandshakeState := do
  let payloadBytes ← encodePayload payload
  let (ciphertext, handshake) ← (SnowHandshake.writeMessage handshake payloadBytes).mapError noiseToRuntimeError
  ExceptT.lift (Proc.writeAll (u16ToBe (UInt16.ofNat ciphertext.length)))
  ExceptT.lift (Proc.writeAll ciphertext)
  return handshake

def recvHandshakePayload (handshake : HandshakeState) : StreamM RuntimeError (NoiseHandshakePayload × HandshakeState) := do
  let lenBytes ← ExceptT.lift (Proc.readExact 2)
  let ciphertext ← ExceptT.lift (Proc.readExact (u16OfBe lenBytes).toNat)
  let (plaintext, handshake) ← (SnowHandshake.readMessage handshake ciphertext).mapError noiseToRuntimeError
  let payload ← decodePayload plaintext
  return (payload, handshake)

/-- `NoiseUpgradeOutput`, with the session of its stream -/
structure NoiseUpgradeOutput where
  session : SnowTransport
  remoteTransportPeerId : List UInt8
  remoteTransportPublicKey : List UInt8

namespace NoiseHandshakePayload

def isEmpty (payload : NoiseHandshakePayload) : Bool :=
  payload.identityKey.isEmpty && payload.identitySig.isEmpty && payload.extensions.isNone

end NoiseHandshakePayload

def upgradeOutbound (identity : TransportIdentityManager) (rng : Randomness) : StreamM RuntimeError NoiseUpgradeOutput := do
  let localStatic ← generateLocalStaticKeypair rng
  let localPayload ← buildLocalIdentityPayload localStatic.publicKey identity
  let handshake ← buildHandshakeState true localStatic.privateKey rng
  let handshake ← sendHandshakePayload handshake {}
  let (remotePayload, handshake) ← recvHandshakePayload handshake
  let remoteIdentity ← verifyRemoteIdentity handshake remotePayload
  let handshake ← sendHandshakePayload handshake localPayload
  let transport ← (SnowHandshake.intoTransportMode handshake).mapError noiseToRuntimeError
  return ⟨transport, Libp2pIdentity.toPeerId remoteIdentity, remotePayload.identityKey⟩

def upgradeInbound (identity : TransportIdentityManager) (rng : Randomness) : StreamM RuntimeError NoiseUpgradeOutput := do
  let localStatic ← generateLocalStaticKeypair rng
  let localPayload ← buildLocalIdentityPayload localStatic.publicKey identity
  let handshake ← buildHandshakeState false localStatic.privateKey rng
  let (firstPayload, handshake) ← recvHandshakePayload handshake
  if firstPayload.isEmpty = false then throw (.config "noise initiator sent a non-empty first payload")
  else
    let handshake ← sendHandshakePayload handshake localPayload
    let (remotePayload, handshake) ← recvHandshakePayload handshake
    let remoteIdentity ← verifyRemoteIdentity handshake remotePayload
    let transport ← (SnowHandshake.intoTransportMode handshake).mapError noiseToRuntimeError
    return ⟨transport, Libp2pIdentity.toPeerId remoteIdentity, remotePayload.identityKey⟩

variable [UnsignedVarint]

def listenerSelect (supported : List String) : StreamM RuntimeError String := do
  match ← listenerSelectOptional supported with
  | some protocol => return protocol
  | none => throw (.config "requested protocol is not supported by the listener")

def upgradeNoiseTransport (role : ConnectionRole) (identity : TransportIdentityManager) (rng : Randomness) :
    StreamM RuntimeError NoiseUpgradeOutput :=
  match role with
  | .outbound => do
    dialerSelect noiseProtocol
    upgradeOutbound identity rng
  | .inbound => do
    let _ ← listenerSelect [noiseProtocol]
    upgradeInbound identity rng

/-- `establish_session` up to the yamux upgrade -/
def secure (role : ConnectionRole) (identity : TransportIdentityManager) (expectedTransportPeer : Option (List UInt8))
    (rng : Randomness) : StreamM RuntimeError NoiseUpgradeOutput := do
  let noiseOutput ← upgradeNoiseTransport role identity rng
  if expectedTransportPeer.any fun expected => expected ≠ noiseOutput.remoteTransportPeerId then
    throw (.config "bootstrap peer transport identity did not match expectation")
  else return noiseOutput

omit [Crypto] [Signing] [Libp2pIdentity] [QuickProtobuf] [SnowHandshake] [UnsignedVarint] in
theorem eq_ok_of_mapError {ε ε' α : Type} {r : Except ε α} {f : ε → ε'} {a : α} (h : r.mapError f = .ok a) : r = .ok a := by
  cases r with
  | error e => cases h
  | ok b => exact congrArg Except.ok (Except.ok.inj h)

/-! ## Two nodes -/

open Proc (puts gets)
open Duplex (Party)

/-- what one side has made before the first byte, its payload leaving room for the handshake -/
structure Prepared (initiator : Bool) (identity : TransportIdentityManager) (rng : Randomness) where
  keys : LocalStaticKeypair
  payload : NoiseHandshakePayload
  handshake : HandshakeState
  generated : generateLocalStaticKeypair rng = .ok keys
  built : buildLocalIdentityPayload keys.publicKey identity = .ok payload
  state : buildHandshakeState initiator keys.privateKey rng = .ok handshake
  fits : payload.writeMessage.length + 96 ≤ maxNoiseFrameLen

omit [Crypto] [Signing] [Libp2pIdentity] [SnowHandshake] [UnsignedVarint] in
theorem decodePayload_writeMessage (payload : NoiseHandshakePayload) : decodePayload payload.writeMessage = .ok payload := by
  have hnested : ∀ extensions ∈ payload.extensions,
      NoiseExtensions.fromReader (NoiseExtensions.fields extensions).flatten = .ok extensions :=
    fun extensions _ => extensions.fromReader_inserted (Inserted.refl _ _)
  have hread := payload.fromReader_inserted hnested (Inserted.refl _ _)
  rw [payload.flatten_fieldsWith] at hread
  rw [decodePayload, hread]
  rfl

omit [Crypto] [Signing] [Libp2pIdentity] [UnsignedVarint] in
theorem sendHandshakePayload_ends {h h' : HandshakeState} {payload : NoiseHandshakePayload} {m : List UInt8}
    (hwrite : SnowHandshake.writeMessage h payload.writeMessage = .ok (m, h')) :
    Ends (sendHandshakePayload h payload) (puts (frame m)) (.ok h') := by
  rw [sendHandshakePayload, frame, puts, List.map_append]
  refine Ends.bind_silent (Ends.ofExcept _) ?_
  rw [hwrite]
  refine Ends.bind_silent (Ends.ofExcept _) ?_
  refine Ends.bind (Ends.lift (.writeAll _)) ?_
  rw [← List.append_nil (m.map _)]
  exact Ends.bind (Ends.lift (.writeAll _)) (.pure h')

omit [Crypto] [Signing] [Libp2pIdentity] [UnsignedVarint] in
theorem recvHandshakePayload_ends {h h' : HandshakeState} {payload : NoiseHandshakePayload} {m : List UInt8}
    (hfits : m.length ≤ 65535) (hread : SnowHandshake.readMessage h m = .ok (payload.writeMessage, h')) :
    Ends (recvHandshakePayload h) (gets (frame m)) (.ok (payload, h')) := by
  have hlen : (u16OfBe (u16ToBe (UInt16.ofNat m.length))).toNat = m.length :=
    toNat_u16OfBe_of_fits (Nat.lt_succ_of_le hfits)
  have hheader : (Proc.readExact (B := UInt8) 2).Runs (gets (u16ToBe (UInt16.ofNat m.length)))
      (.done (u16ToBe (UInt16.ofNat m.length))) := by
    have hruns := Proc.Runs.readExact (u16ToBe (UInt16.ofNat m.length))
    rwa [length_u16ToBe] at hruns
  rw [recvHandshakePayload, frame, gets, List.map_append]
  refine Ends.bind (Ends.lift hheader) ?_
  rw [hlen, ← List.append_nil (m.map _)]
  refine Ends.bind (Ends.lift (.readExact m)) ?_
  rw [hread]
  refine Ends.bind_silent (Ends.ofExcept _) ?_
  dsimp only
  rw [decodePayload_writeMessage]
  exact Ends.bind_silent (Ends.ofExcept _) (.pure _)

omit [Crypto] [Signing] [Libp2pIdentity] [UnsignedVarint] [QuickProtobuf] in
theorem generateLocalStaticKeypair_ok {rng : Randomness} {keys : LocalStaticKeypair}
    (h : generateLocalStaticKeypair rng = .ok keys) : ∃ params, SnowHandshake.parse noiseProtocolName = some params ∧
      SnowHandshake.generateKeypair params rng = .ok keys := by
  unfold generateLocalStaticKeypair parseNoiseParams at h
  cases hparse : SnowHandshake.parse noiseProtocolName with
  | none =>
    rw [hparse] at h
    cases h
  | some params =>
    rw [hparse] at h
    exact ⟨params, rfl, eq_ok_of_mapError h⟩

omit [Crypto] [Signing] [Libp2pIdentity] [UnsignedVarint] [QuickProtobuf] in
theorem buildHandshakeState_ok {initiator : Bool} {key : List UInt8} {rng : Randomness} {h : HandshakeState}
    {params : SnowHandshake.NoiseParams} (hparse : SnowHandshake.parse noiseProtocolName = some params)
    (hbuild : buildHandshakeState initiator key rng = .ok h) : SnowHandshake.build params initiator key rng = .ok h := by
  unfold buildHandshakeState parseNoiseParams at hbuild
  rw [hparse] at hbuild
  exact eq_ok_of_mapError hbuild

section Honest

variable {identity identity' : TransportIdentityManager} {publicKey publicKey' : PublicKey} {rng rng' : Randomness}

omit [UnsignedVarint] [SnowHandshake] [QuickProtobuf] in
theorem buildLocalIdentityPayload_ok {staticPublicKey : List UInt8} {payload : NoiseHandshakePayload}
    (hof : identity.Of publicKey) (h : buildLocalIdentityPayload staticPublicKey identity = .ok payload) :
    payload.identityKey = identity.publicKeyProtobufBytes ∧
      Libp2pIdentity.verify publicKey (signatureInput staticPublicKey) payload.identitySig = true := by
  unfold buildLocalIdentityPayload at h
  cases hsign : identity.sign (signatureInput staticPublicKey) with
  | error e =>
    rw [hsign] at h
    cases h
  | ok signature =>
    rw [hsign] at h
    cases h
    exact ⟨rfl, hof.signs _ _ hsign⟩

omit [UnsignedVarint] [QuickProtobuf] in
/-- the payload of a node passes, over the static key it was made for -/
theorem verifyRemoteIdentity_ok {staticPublicKey : List UInt8} {payload : NoiseHandshakePayload} {h : HandshakeState}
    (hof : identity.Of publicKey) (hbuilt : buildLocalIdentityPayload staticPublicKey identity = .ok payload)
    (hstatic : SnowHandshake.getRemoteStatic h = some staticPublicKey) : verifyRemoteIdentity h payload = .ok publicKey := by
  obtain ⟨hkey, hverify⟩ := buildLocalIdentityPayload_ok hof hbuilt
  have hkey' : payload.identityKey = Libp2pIdentity.encodeProtobuf publicKey := hkey.trans hof.protobuf
  have hne : payload.identityKey ≠ [] := by
    rw [hkey']
    exact Libp2pIdentity.encode_ne_nil publicKey
  have hsig : payload.identitySig ≠ [] := by
    intro hnil
    rw [hnil, Libp2pIdentity.verify_nil] at hverify
    cases hverify
  unfold verifyRemoteIdentity
  rw [hstatic]
  dsimp only
  rw [if_neg hne, if_neg hsig, hkey', Libp2pIdentity.public_key_round_trip]
  dsimp only
  rw [if_pos hverify]

/-- what a side reports of the other -/
def NoiseUpgradeOutput.Names (out : NoiseUpgradeOutput) (identity : TransportIdentityManager) : Prop :=
  out.remoteTransportPeerId = identity.peerIdBytes ∧ out.remoteTransportPublicKey = identity.publicKeyProtobufBytes

omit [UnsignedVarint] in
/-- the three messages of two prepared sides -/
theorem upgrade_ends (hof : identity.Of publicKey) (hof' : identity'.Of publicKey') (p : Prepared true identity rng)
    (p' : Prepared false identity' rng') : ∃ m₁ m₂ m₃ out out',
      Ends (upgradeOutbound identity rng)
        (Party.left.trace [(.left, frame m₁), (.right, frame m₂), (.left, frame m₃)]) (.ok out) ∧
      Ends (upgradeInbound identity' rng')
        (Party.right.trace [(.left, frame m₁), (.right, frame m₂), (.left, frame m₃)]) (.ok out') ∧
      out.session.Fits out'.session ∧ out.Names identity' ∧ out'.Names identity := by
  obtain ⟨params, hparse, hgenerate⟩ := generateLocalStaticKeypair_ok p.generated
  obtain ⟨params', hparse', hgenerate'⟩ := generateLocalStaticKeypair_ok p'.generated
  obtain rfl := Option.some.inj (hparse.symm.trans hparse')
  have hempty : ({} : NoiseHandshakePayload).writeMessage.length + 96 ≤ 65535 := by
    change 0 + 96 ≤ 65535
    decide
  obtain ⟨m₁, m₂, m₃, i₁, i₂, i₃, r₁, r₂, r₃, t, t', hw₁, hr₁, hw₂, hr₂, hstatic, hw₃, hr₃, hstatic', ht, ht', hfit⟩ :=
    SnowHandshake.xx hparse hgenerate hgenerate' (buildHandshakeState_ok hparse p.state)
      (buildHandshakeState_ok hparse p'.state) hempty p'.fits p.fits
  have hkey := (buildLocalIdentityPayload_ok hof p.built).1
  have hkey' := (buildLocalIdentityPayload_ok hof' p'.built).1
  refine ⟨m₁, m₂, m₃, ⟨t, Libp2pIdentity.toPeerId publicKey', p'.payload.identityKey⟩,
    ⟨t', Libp2pIdentity.toPeerId publicKey, p.payload.identityKey⟩, ?_, ?_, hfit, ⟨hof'.peerId.symm, hkey'⟩,
    ⟨hof.peerId.symm, hkey⟩⟩
  · have htrace : Party.left.trace [(.left, frame m₁), (.right, frame m₂), (.left, frame m₃)] =
        puts (frame m₁) ++ (gets (frame m₂) ++ (puts (frame m₃) ++ [])) := rfl
    rw [htrace, upgradeOutbound, p.generated]
    refine Ends.bind_silent (Ends.ofExcept _) ?_
    rw [p.built]
    refine Ends.bind_silent (Ends.ofExcept _) ?_
    rw [p.state]
    refine Ends.bind_silent (Ends.ofExcept _) ?_
    refine Ends.bind (sendHandshakePayload_ends hw₁) ?_
    refine Ends.bind (recvHandshakePayload_ends (SnowHandshake.message_fits hw₂) hr₂) ?_
    dsimp only
    rw [verifyRemoteIdentity_ok hof' p'.built hstatic]
    refine Ends.bind_silent (Ends.ofExcept _) ?_
    refine Ends.bind (sendHandshakePayload_ends hw₃) ?_
    rw [ht]
    exact Ends.bind_silent (Ends.ofExcept _) (.pure _)
  · have htrace : Party.right.trace [(.left, frame m₁), (.right, frame m₂), (.left, frame m₃)] =
        gets (frame m₁) ++ (puts (frame m₂) ++ (gets (frame m₃) ++ [])) := rfl
    rw [htrace, upgradeInbound, p'.generated]
    refine Ends.bind_silent (Ends.ofExcept _) ?_
    rw [p'.built]
    refine Ends.bind_silent (Ends.ofExcept _) ?_
    rw [p'.state]
    refine Ends.bind_silent (Ends.ofExcept _) ?_
    refine Ends.bind (recvHandshakePayload_ends (SnowHandshake.message_fits hw₁) hr₁) ?_
    have hfirst : ¬ NoiseHandshakePayload.isEmpty {} = false := by decide
    dsimp only
    rw [if_neg hfirst]
    refine Ends.bind (sendHandshakePayload_ends hw₂) ?_
    refine Ends.bind (recvHandshakePayload_ends (SnowHandshake.message_fits hw₃) hr₃) ?_
    dsimp only
    rw [verifyRemoteIdentity_ok hof p.built hstatic']
    refine Ends.bind_silent (Ends.ofExcept _) ?_
    rw [ht']
    exact Ends.bind_silent (Ends.ofExcept _) (.pure _)

/-- the check of the expected peer -/
def checked (expectedTransportPeer : Option (List UInt8)) (out : NoiseUpgradeOutput) : Except RuntimeError NoiseUpgradeOutput :=
  if expectedTransportPeer.any fun expected => expected ≠ out.remoteTransportPeerId then
    .error (.config "bootstrap peer transport identity did not match expectation")
  else .ok out

/-- the whole conversation: four lines of multistream, three messages of XX -/
theorem secure_ends (hof : identity.Of publicKey) (hof' : identity'.Of publicKey') (p : Prepared true identity rng)
    (p' : Prepared false identity' rng') (expected expected' : Option (List UInt8)) : ∃ messages out out',
      Ends (secure .outbound identity expected rng) (Party.left.trace messages) (checked expected out) ∧
      Ends (secure .inbound identity' expected' rng') (Party.right.trace messages) (checked expected' out') ∧
      out.session.Fits out'.session ∧ out.Names identity' ∧ out'.Names identity := by
  obtain ⟨m₁, m₂, m₃, out, out', hout, hin, hfit, hnames, hnames'⟩ := upgrade_ends hof hof' p p'
  have hname : ValidName noiseProtocol := ⟨by decide, by decide, by decide⟩
  have hcheck (expected : Option (List UInt8)) (out : NoiseUpgradeOutput) : Ends (do
      if expected.any fun expected => expected ≠ out.remoteTransportPeerId then
        throw (.config "bootstrap peer transport identity did not match expectation")
      else return out) [] (checked expected out) := by
    unfold checked
    split_ifs
    · exact .throw _
    · exact .pure _
  refine ⟨[(.left, frameOf multistreamV1), (.right, frameOf multistreamV1), (.left, frameOf noiseProtocol),
    (.right, frameOf (selection [noiseProtocol] noiseProtocol))] ++
    [(.left, frame m₁), (.right, frame m₂), (.left, frame m₃)], out, out', ?_, ?_, hfit, hnames, hnames'⟩
  · have hselect := dialerSelect_ends hname [noiseProtocol]
    have hupgrade : Ends (upgradeNoiseTransport .outbound identity rng) (Party.left.trace
        ([(.left, frameOf multistreamV1), (.right, frameOf multistreamV1), (.left, frameOf noiseProtocol),
          (.right, frameOf (selection [noiseProtocol] noiseProtocol))] ++
          [(.left, frame m₁), (.right, frame m₂), (.left, frame m₃)])) (.ok out) := by
      rw [Party.trace, List.flatMap_append]
      exact Ends.bind hselect hout
    rw [← List.append_nil (Party.left.trace _)]
    exact Ends.bind hupgrade (hcheck expected out)
  · have hselect := listenerSelectOptional_ends hname [noiseProtocol]
    have hlisten : Ends (listenerSelect [noiseProtocol]) (Party.right.trace
        [(.left, frameOf multistreamV1), (.right, frameOf multistreamV1), (.left, frameOf noiseProtocol),
          (.right, frameOf (selection [noiseProtocol] noiseProtocol))]) (.ok noiseProtocol) := by
      rw [← List.append_nil (Party.right.trace _)]
      exact Ends.bind hselect (.pure noiseProtocol)
    have hupgrade : Ends (upgradeNoiseTransport .inbound identity' rng') (Party.right.trace
        ([(.left, frameOf multistreamV1), (.right, frameOf multistreamV1), (.left, frameOf noiseProtocol),
          (.right, frameOf (selection [noiseProtocol] noiseProtocol))] ++
          [(.left, frame m₁), (.right, frame m₂), (.left, frame m₃)])) (.ok out') := by
      rw [Party.trace, List.flatMap_append]
      exact Ends.bind hlisten hin
    rw [← List.append_nil (Party.right.trace _)]
    exact Ends.bind hupgrade (hcheck expected' out')

/-- a dialer and a listener at the two ends of a stream, each writing data once it has its result -/
def connection (identity identity' : TransportIdentityManager) (expected expected' : Option (List UInt8))
    (rng rng' : Randomness) (data data' : Except RuntimeError NoiseUpgradeOutput → List UInt8) :
    Duplex UInt8 (Except RuntimeError NoiseUpgradeOutput) (Except RuntimeError NoiseUpgradeOutput) :=
  ⟨thenWrites (secure .outbound identity expected rng) data, thenWrites (secure .inbound identity' expected' rng') data', [], []⟩

/-- **Two nodes secure their connection.** Let a dialer and a listener have made their keys, payloads and handshake states, and
each have a transport identity that belongs to one public key. Then there is a bound on the length of all runs, and in every
state in which neither side can go on both have returned: with transport states that fit together, each naming the other's
transport peer id and public key, except that a side whose expected peer is not the other one has refused it. What is unread
in both directions is exactly what was written afterwards. -/
theorem secured_agree (hof : identity.Of publicKey) (hof' : identity'.Of publicKey') (p : Prepared true identity rng)
    (p' : Prepared false identity' rng') (expected expected' : Option (List UInt8))
    (data data' : Except RuntimeError NoiseUpgradeOutput → List UInt8) :
    ∃ n out out', out.session.Fits out'.session ∧ out.Names identity' ∧ out'.Names identity ∧
      ∀ k σ, (Duplex.machine (connection identity identity' expected expected' rng rng' data data')).Steps k
          (connection identity identity' expected expected' rng rng' data data') σ →
        k ≤ n ∧ ((Duplex.machine (connection identity identity' expected expected' rng rng' data data')).Final σ →
          σ = ⟨.done (checked expected out), .done (checked expected' out'), data (checked expected out),
            data' (checked expected' out')⟩) := by
  obtain ⟨messages, out, out', hd, hl, hfit, hnames, hnames'⟩ := secure_ends hof hof' p p' expected expected'
  have hd := thenWrites_runs hd data
  have hl := thenWrites_runs hl data'
  obtain ⟨d, hd, hdata⟩ := hd.cut
  obtain ⟨l, hl, hdata'⟩ := hl.cut
  obtain ⟨n, hn⟩ := Duplex.steps_conversation hd hl
  refine ⟨n + ((data (checked expected out)).length + (data' (checked expected' out')).length), out, out', hfit, hnames,
    hnames', fun k σ hσ => ?_⟩
  obtain ⟨j, hj, hrest⟩ := (hn.trans ((Duplex.steps_left_puts hdata l [] []).trans
    (Duplex.steps_right_puts hdata' _ _ []))).complete (Duplex.commutes _) (Duplex.final_done _ _ _ _ _) hσ
  exact ⟨hj ▸ Nat.le_add_right k j, fun h => hrest.eq_of_final h⟩

end Honest

/-! ## One node against anything -/

section Authentic

variable {ε α β : Type} {trace : List (Proc.Event UInt8)}

omit [Crypto] [Signing] [Libp2pIdentity] [QuickProtobuf] [SnowHandshake] [UnsignedVarint] in
theorem ends_bind_ok {x : StreamM ε α} {f : α → StreamM ε β} {b : β} (h : Ends (x >>= f) trace (.ok b)) :
    ∃ a t t', trace = t ++ t' ∧ Ends x t (.ok a) ∧ Ends (f a) t' (.ok b) := by
  obtain ⟨r, t, t', rfl, hx, hf⟩ := Proc.Runs.of_bind h
  cases r with
  | error e => cases hf
  | ok a => exact ⟨a, t, t', rfl, hx, hf⟩

omit [Crypto] [Signing] [Libp2pIdentity] [QuickProtobuf] [SnowHandshake] [UnsignedVarint] in
theorem ends_ofExcept_ok {e : Except ε α} {a : α} (h : Ends (liftM e : StreamM ε α) trace (.ok a)) : e = .ok a := by
  cases h
  rfl

/-- the session behind an output is signed for by the identity it reports -/
def NoiseUpgradeOutput.SignedFor (out : NoiseUpgradeOutput) : Prop :=
  ∃ publicKey staticPublicKey signature, Libp2pIdentity.tryDecodeProtobuf out.remoteTransportPublicKey = some publicKey ∧
    out.remoteTransportPeerId = Libp2pIdentity.toPeerId publicKey ∧ out.session.remoteStatic = some staticPublicKey ∧
    Libp2pIdentity.verify publicKey (signatureInput staticPublicKey) signature = true

omit [Signing] [UnsignedVarint] [QuickProtobuf] in
theorem verifyRemoteIdentity_signed {h : HandshakeState} {payload : NoiseHandshakePayload} {publicKey : PublicKey}
    (hok : verifyRemoteIdentity h payload = .ok publicKey) :
    Libp2pIdentity.tryDecodeProtobuf payload.identityKey = some publicKey ∧ ∃ staticPublicKey,
      SnowHandshake.getRemoteStatic h = some staticPublicKey ∧
      Libp2pIdentity.verify publicKey (signatureInput staticPublicKey) payload.identitySig = true := by
  unfold verifyRemoteIdentity at hok
  split at hok
  · cases hok
  · rename_i staticPublicKey hstatic
    split_ifs at hok
    split at hok
    · cases hok
    · rename_i found hdecode
      split_ifs at hok with hverify
      cases hok
      exact ⟨hdecode, staticPublicKey, hstatic, hverify⟩

omit [Crypto] [Signing] [Libp2pIdentity] [UnsignedVarint] in
/-- sending does not change the static key that was read -/
theorem sendHandshakePayload_static {h h' : HandshakeState} {payload : NoiseHandshakePayload} {staticPublicKey : List UInt8}
    (hends : Ends (sendHandshakePayload h payload) trace (.ok h'))
    (hstatic : SnowHandshake.getRemoteStatic h = some staticPublicKey) :
    SnowHandshake.getRemoteStatic h' = some staticPublicKey := by
  obtain ⟨payloadBytes, t, t', rfl, -, hends⟩ := ends_bind_ok hends
  obtain ⟨⟨ciphertext, h₁⟩, t₁, t₁', rfl, hwrite, hends⟩ := ends_bind_ok hends
  obtain ⟨-, t₂, t₂', rfl, -, hends⟩ := ends_bind_ok hends
  obtain ⟨-, t₃, t₃', rfl, -, hends⟩ := ends_bind_ok hends
  cases hends
  exact SnowHandshake.write_static (eq_ok_of_mapError (ends_ofExcept_ok hwrite)) hstatic

omit [Signing] [UnsignedVarint] [QuickProtobuf] in
/-- the end of either upgrade -/
theorem signedFor_of_transport {h h' : HandshakeState} {payload : NoiseHandshakePayload} {publicKey : PublicKey}
    {transport : SnowTransport} (hverify : verifyRemoteIdentity h payload = .ok publicKey)
    (hkept : ∀ s, SnowHandshake.getRemoteStatic h = some s → SnowHandshake.getRemoteStatic h' = some s)
    (htransport : (SnowHandshake.intoTransportMode h').mapError noiseToRuntimeError = .ok transport) :
    NoiseUpgradeOutput.SignedFor ⟨transport, Libp2pIdentity.toPeerId publicKey, payload.identityKey⟩ := by
  obtain ⟨hdecode, staticPublicKey, hstatic, hsigned⟩ := verifyRemoteIdentity_signed hverify
  refine ⟨publicKey, staticPublicKey, payload.identitySig, hdecode, rfl, ?_, hsigned⟩
  rw [SnowHandshake.transport_static (eq_ok_of_mapError htransport)]
  exact hkept staticPublicKey hstatic

variable {identity : TransportIdentityManager} {rng : Randomness} {out : NoiseUpgradeOutput}

omit [UnsignedVarint] in
theorem upgradeOutbound_signed (h : Ends (upgradeOutbound identity rng) trace (.ok out)) : out.SignedFor := by
  obtain ⟨localStatic, t, t', rfl, -, h⟩ := ends_bind_ok h
  obtain ⟨localPayload, t₁, t₁', rfl, -, h⟩ := ends_bind_ok h
  obtain ⟨h₀, t₂, t₂', rfl, -, h⟩ := ends_bind_ok h
  obtain ⟨h₁, t₃, t₃', rfl, -, h⟩ := ends_bind_ok h
  obtain ⟨⟨remotePayload, h₂⟩, t₄, t₄', rfl, -, h⟩ := ends_bind_ok h
  obtain ⟨remoteIdentity, t₅, t₅', rfl, hverify, h⟩ := ends_bind_ok h
  obtain ⟨h₃, t₆, t₆', rfl, hsend, h⟩ := ends_bind_ok h
  obtain ⟨transport, t₇, t₇', rfl, htransport, h⟩ := ends_bind_ok h
  cases h
  exact signedFor_of_transport (ends_ofExcept_ok hverify) (fun _ hs => sendHandshakePayload_static hsend hs)
    (ends_ofExcept_ok htransport)

omit [UnsignedVarint] in
theorem upgradeInbound_signed (h : Ends (upgradeInbound identity rng) trace (.ok out)) : out.SignedFor := by
  obtain ⟨localStatic, t, t', rfl, -, h⟩ := ends_bind_ok h
  obtain ⟨localPayload, t₁, t₁', rfl, -, h⟩ := ends_bind_ok h
  obtain ⟨h₀, t₂, t₂', rfl, -, h⟩ := ends_bind_ok h
  obtain ⟨⟨firstPayload, h₁⟩, t₃, t₃', rfl, -, h⟩ := ends_bind_ok h
  dsimp only at h
  split_ifs at h
  · cases h
  obtain ⟨h₂, t₄, t₄', rfl, -, h⟩ := ends_bind_ok h
  obtain ⟨⟨remotePayload, h₃⟩, t₅, t₅', rfl, -, h⟩ := ends_bind_ok h
  obtain ⟨remoteIdentity, t₆, t₆', rfl, hverify, h⟩ := ends_bind_ok h
  obtain ⟨transport, t₇, t₇', rfl, htransport, h⟩ := ends_bind_ok h
  cases h
  exact signedFor_of_transport (ends_ofExcept_ok hverify) (fun _ hs => hs) (ends_ofExcept_ok htransport)

/-- **A secured connection is authentic.** Whatever is written by the other end of the stream and in whatever pieces it comes: if
a side ends with success, the peer id and the key bytes it reports are those of one public key, the remote static key of its
session is signed under that key, and a peer id it expected is the one it reports. -/
theorem secured_authentic {role : ConnectionRole} {expected : Option (List UInt8)}
    (h : Ends (secure role identity expected rng) trace (.ok out)) :
    out.SignedFor ∧ ∀ peer, expected = some peer → out.remoteTransportPeerId = peer := by
  obtain ⟨found, t, t', rfl, hupgrade, h⟩ := ends_bind_ok h
  have hsigned : found.SignedFor := by
    cases role with
    | outbound =>
      obtain ⟨-, t₁, t₁', rfl, -, hupgrade⟩ := ends_bind_ok hupgrade
      exact upgradeOutbound_signed hupgrade
    | inbound =>
      obtain ⟨-, t₁, t₁', rfl, -, hupgrade⟩ := ends_bind_ok hupgrade
      exact upgradeInbound_signed hupgrade
  split_ifs at h with hexpected
  · cases h
  · cases h
    refine ⟨hsigned, fun peer hpeer => ?_⟩
    subst hpeer
    by_contra hne
    exact hexpected (decide_eq_true (Ne.symm hne))

end Authentic

end Handshake

section Witness

open Sample

/-! ### A pattern without secrets

Keys of 32 bytes that are their own public keys, and messages in the clear. -/

structure OpenState where
  initiator : Bool
  key : U8Array 32
  remote : Option (U8Array 32)
  /-- messages written and read -/
  turn : ℕ
deriving DecidableEq

namespace OpenState

/-- the static key goes with the second and the third message -/
def writeMessage (h : OpenState) (p : List UInt8) : Except String (List UInt8 × OpenState) :=
  let m := if h.turn = 0 then p else h.key.bytes ++ p
  if m.length ≤ 65535 then .ok (m, { h with turn := h.turn + 1 }) else .error "input error"

def readMessage (h : OpenState) (m : List UInt8) : Except String (List UInt8 × OpenState) :=
  if h.turn = 0 then .ok (m, { h with turn := 1 })
  else
    match U8Array.ofList? 32 (m.take 32) with
    | none => .error "input error"
    | some remote => .ok (m.drop 32, { h with remote := some remote, turn := h.turn + 1 })

theorem readMessage_key {h : OpenState} (hturn : h.turn ≠ 0) (key : U8Array 32) (p : List UInt8) :
    h.readMessage (key.bytes ++ p) = .ok (p, { h with remote := some key, turn := h.turn + 1 }) := by
  have htake : (key.bytes ++ p).take 32 = key.bytes := List.take_left' key.size_eq
  have hdrop : (key.bytes ++ p).drop 32 = p := List.drop_left' key.size_eq
  rw [readMessage, if_neg hturn, htake, U8Array.ofList?_bytes]
  dsimp only
  rw [hdrop]

theorem writeMessage_key {h : OpenState} (hturn : h.turn ≠ 0) {p : List UInt8} (hp : p.length + 96 ≤ 65535) :
    h.writeMessage p = .ok (h.key.bytes ++ p, { h with turn := h.turn + 1 }) := by
  rw [writeMessage, if_neg hturn, if_pos]
  rw [List.length_append, h.key.size_eq]
  omega

theorem writeMessage_ok {h h' : OpenState} {p m : List UInt8} (hwrite : h.writeMessage p = .ok (m, h')) :
    m.length ≤ 65535 ∧ h'.remote = h.remote := by
  unfold writeMessage at hwrite
  dsimp only at hwrite
  generalize (if h.turn = 0 then p else h.key.bytes ++ p) = m₀ at hwrite
  split_ifs at hwrite with hlen
  cases hwrite
  exact ⟨hlen, rfl⟩

end OpenState

@[reducible] def openPattern : SnowHandshake where
  NoiseParams := Unit
  Randomness := U8Array 32
  HandshakeState := OpenState
  parse name := if name = noiseProtocolName then some () else none
  generateKeypair _ rng := .ok ⟨rng.bytes, rng.bytes⟩
  build _ initiator key _ :=
    match U8Array.ofList? 32 key with
    | none => .error "input error"
    | some key => .ok ⟨initiator, key, none, 0⟩
  writeMessage := OpenState.writeMessage
  readMessage := OpenState.readMessage
  getRemoteStatic h := h.remote.map U8Array.bytes
  intoTransportMode h := .ok ⟨tagged, tagged, h.remote.map U8Array.bytes⟩
  message_fits hwrite := (OpenState.writeMessage_ok hwrite).1
  write_static hwrite hstatic := by
    rw [(OpenState.writeMessage_ok hwrite).2]
    exact hstatic
  transport_static := by
    intro h t htransport
    cases htransport
    rfl
  xx := by
    rintro params rng rng' k k' i r p₁ p₂ p₃ - hk hk' hi hr hp₁ hp₂ hp₃
    cases hk
    cases hk'
    dsimp only at hi hr
    rw [U8Array.ofList?_bytes] at hi hr
    cases hi
    cases hr
    have hw₁ : (⟨true, rng, none, 0⟩ : OpenState).writeMessage p₁ = .ok (p₁, ⟨true, rng, none, 1⟩) := by
      rw [OpenState.writeMessage]
      dsimp only
      rw [if_pos rfl, if_pos (by omega)]
    refine ⟨p₁, rng'.bytes ++ p₂, rng.bytes ++ p₃, ⟨true, rng, none, 1⟩, ⟨true, rng, some rng', 2⟩, ⟨true, rng, some rng', 3⟩,
      ⟨false, rng', none, 1⟩, ⟨false, rng', none, 2⟩, ⟨false, rng', some rng, 3⟩, _, _, hw₁, rfl, ?_, ?_, rfl, ?_, ?_, rfl, rfl,
      rfl, rfl, rfl⟩
    · exact OpenState.writeMessage_key (Nat.succ_ne_zero 0) hp₂
    · exact OpenState.readMessage_key (Nat.succ_ne_zero 0) rng' p₂
    · exact OpenState.writeMessage_key (Nat.succ_ne_zero 1) hp₃
    · exact OpenState.readMessage_key (Nat.succ_ne_zero 1) rng p₃

/-- the transport identity of a key -/
def transportIdentity (k : PublicKeyBytes) : TransportIdentityManager := ⟨.ecdsaP256, k.bytes, k.bytes, .software k⟩

theorem transportIdentity_of (k : PublicKeyBytes) : (transportIdentity k).Of k :=
  TransportIdentityManager.of_fromKeypair rfl

theorem length_bytes32 (x : UInt8) : (List.replicate 32 x).length = 32 := List.length_replicate

/-- the random bytes that are all `x` -/
def bytes32 (x : UInt8) : U8Array 32 := ⟨List.replicate 32 x, length_bytes32 x⟩

def preparedWith (initiator : Bool) (k rng : UInt8)
    (fits : letI := lebProtobuf
      (NoiseHandshakePayload.writeMessage ⟨(key k).bytes, (sign (key k) (signatureInput (bytes32 rng).bytes)).bytes, none⟩).length +
        96 ≤ maxNoiseFrameLen) :
    letI := lebProtobuf
    letI := openPattern
    Prepared initiator (transportIdentity (key k)) (bytes32 rng) :=
  letI := lebProtobuf
  letI := openPattern
  { keys := ⟨(bytes32 rng).bytes, (bytes32 rng).bytes⟩
    payload := ⟨(key k).bytes, (sign (key k) (signatureInput (bytes32 rng).bytes)).bytes, none⟩
    handshake := ⟨initiator, bytes32 rng, none, 0⟩
    generated := rfl
    built := rfl
    state := by
      have hkey : U8Array.ofList? 32 (bytes32 rng).bytes = some (bytes32 rng) := U8Array.ofList?_bytes _
      simp only [buildHandshakeState, parseNoiseParams, SnowHandshake.parse, SnowHandshake.build, if_true, hkey]
      rfl
    fits := fits }

/-- the dialer expects the listener, whose key is `key 9` -/
theorem secured_agree_of_open :
    letI := lebProtobuf
    letI := openPattern
    letI := leb128
    ∃ n out out', out.session.Fits out'.session ∧ out.Names (transportIdentity (key 9)) ∧
      out'.Names (transportIdentity (key 8)) ∧ ∀ k σ,
        (Duplex.machine (connection (transportIdentity (key 8)) (transportIdentity (key 9)) (some (key 9).bytes) none (bytes32 1)
          (bytes32 2) (fun _ => [1]) fun _ => [2])).Steps k
          (connection (transportIdentity (key 8)) (transportIdentity (key 9)) (some (key 9).bytes) none (bytes32 1)
            (bytes32 2) (fun _ => [1]) fun _ => [2]) σ →
        k ≤ n ∧ ((Duplex.machine (connection (transportIdentity (key 8)) (transportIdentity (key 9)) (some (key 9).bytes) none
            (bytes32 1) (bytes32 2) (fun _ => [1]) fun _ => [2])).Final σ →
          σ = ⟨.done (checked (some (key 9).bytes) out), .done (checked none out'), [1], [2]⟩) :=
  letI := lebProtobuf
  letI := openPattern
  letI := leb128
  secured_agree (transportIdentity_of (key 8)) (transportIdentity_of (key 9)) (preparedWith true 8 1 (by decide +kernel))
    (preparedWith false 9 2 (by decide +kernel)) (some (key 9).bytes) none (fun _ => [1]) fun _ => [2]

/-- and it finds it -/
theorem secured_authentic_of_open :
    letI := lebProtobuf
    letI := openPattern
    letI := leb128
    ∃ trace out, Ends (secure .outbound (transportIdentity (key 8)) (some (key 9).bytes) (bytes32 1)) trace (.ok out) ∧
      out.SignedFor ∧ out.remoteTransportPeerId = (key 9).bytes := by
  let _ := lebProtobuf
  let _ := openPattern
  let _ := leb128
  obtain ⟨messages, out, out', hends, -, -, hnames, -⟩ := secure_ends (transportIdentity_of (key 8))
    (transportIdentity_of (key 9)) (preparedWith true 8 1 (by decide +kernel)) (preparedWith false 9 2 (by decide +kernel))
    (some (key 9).bytes) none
  have hchecked : checked (some (key 9).bytes) out = .ok out := by
    have hpeer : out.remoteTransportPeerId = (key 9).bytes := hnames.1
    simp [checked, hpeer]
  rw [hchecked] at hends
  obtain ⟨hsigned, hexpected⟩ := secured_authentic hends
  exact ⟨_, out, hends, hsigned, hexpected _ rfl⟩

end Witness

end Erp

end RustProof
