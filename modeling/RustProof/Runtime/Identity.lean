/-
The identities of a node (`identity/manager.rs`, `network/transport_identity.rs` of erp-runtime; `HostNodeIdentity` and
`HostTransportIdentity` in `network/manager.rs` of rp-runtime).

A node has two: a P-256 key that signs hellos and blocks, and a libp2p key that Noise authenticates. The embedded node takes
them from the chip if there is a key in its fuses; else the node key is a fixed development key and the libp2p key is kept in
flash. The host keeps both in files. A file write can be cut off anywhere, and so can every start; a flash write is done or
not done. `Path::exists` of the host takes every error for no file, and a start that does not see a file replaces it.

The signer of `p256`, the one of the chip and `libp2p_identity` are parameters with their documented laws.

Results, over any number of starts, cut off or failing at any point:
- `embedded_transport_identity_lasts`: all starts on one chip that succeed have the same transport identity, and flash is
  written at most once;
- `host_identities_last`: all starts over one directory that succeed have the same two identities, as long as they see the
  files that are there; a key file that was cut short or does not read is not replaced, and no start succeeds over it.
-/
import RustProof.Core.Sample
import RustProof.Lib.Once
import RustProof.Lib.Postcard
import RustProof.Runtime.Registry
import RustProof.Storage.Backend

namespace RustProof

/-- the keys of the crate `p256` that sign -/
class Signing [Crypto] where
  SigningKey : Type
  verifyingKey : SigningKey → VerifyingKey
  sign : SigningKey → List UInt8 → Signature
  signingKeyToBytes : SigningKey → U8Array 32
  signingKeyFromBytes : U8Array 32 → Option SigningKey
  verify_sign : ∀ k m, verify (verifyingKey k) m (sign k m) = true
  signing_key_round_trip : ∀ k, signingKeyFromBytes (signingKeyToBytes k) = some k

export Signing (SigningKey signingKeyToBytes signingKeyFromBytes)

inductive KeyType where
  | ed25519
  | ecdsa
  /-- RSA and secp256k1 -/
  | other
deriving DecidableEq, Repr

/-- the crate `libp2p_identity` -/
class Libp2pIdentity [Crypto] where
  Keypair : Type
  PublicKey : Type
  keyType : Keypair → KeyType
  publicKey : Keypair → PublicKey
  toProtobufEncoding : Keypair → Option (List UInt8)
  fromProtobufEncoding : List UInt8 → Option Keypair
  encodeProtobuf : PublicKey → List UInt8
  tryDecodeProtobuf : List UInt8 → Option PublicKey
  /-- `to_peer_id().to_bytes()` -/
  toPeerId : PublicKey → List UInt8
  sign : Keypair → List UInt8 → Option (List UInt8)
  verify : PublicKey → (message signature : List UInt8) → Bool
  /-- `ecdsa::PublicKey::try_from_bytes` -/
  ecdsaTryFromBytes : List UInt8 → Option PublicKey
  /-- `p256::ecdsa::Signature::to_der` -/
  toDer : Signature → List UInt8
  /-- a `Vec` -/
  encoding_fits : ∀ {k bytes}, toProtobufEncoding k = some bytes → bytes.length < 2 ^ 64
  keypair_round_trip : ∀ {k bytes}, toProtobufEncoding k = some bytes → fromProtobufEncoding bytes = some k
  /-- type and key are required fields, and the key comes last, with its length -/
  keypair_cut : ∀ {k bytes p}, toProtobufEncoding k = some bytes → p <+: bytes → p ≠ bytes → fromProtobufEncoding p = none
  public_key_round_trip : ∀ k, tryDecodeProtobuf (encodeProtobuf k) = some k
  /-- the type of the key is always written -/
  encode_ne_nil : ∀ k, encodeProtobuf k ≠ []
  verify_sign : ∀ {k m s}, sign k m = some s → verify (publicKey k) m s = true
  /-- no signature is empty -/
  verify_nil : ∀ k m, verify k m [] = false
  /-- both are ECDSA over P-256 with SHA-256 -/
  verify_der : ∀ {key : VerifyingKey} {k m} {s : Signature}, ecdsaTryFromBytes (verifyingKeyToBytes key).bytes = some k →
    Crypto.verify key m s = true → verify k m (toDer s) = true

export Libp2pIdentity (Keypair PublicKey)

section Identity

variable [Crypto] [Signing]

namespace Erp

/-! ## The node identity of erp-runtime -/

/-- a key in the fuses of the chip, behind `psa_sign_hash` -/
structure EfuseKey where
  verifyingKey : VerifyingKey
  sign : List UInt8 → Option Signature
  sound : ∀ m s, sign m = some s → verify verifyingKey m s = true

inductive IdentityBackend where
  | software (signingKey : SigningKey)
  | efuse (key : EfuseKey)

structure IdentityManager where
  peerId : PeerId
  publicKey : List UInt8
  verifyingKey : VerifyingKey
  backend : IdentityBackend

namespace IdentityManager

def fromSoftwareSigningKey (signingKey : SigningKey) : IdentityManager :=
  let verifyingKey := Signing.verifyingKey signingKey
  let publicKey := (verifyingKeyToBytes verifyingKey).bytes
  ⟨sha256 publicKey, publicKey, verifyingKey, .software signingKey⟩

def fromEfuseBlock (key : EfuseKey) : IdentityManager :=
  let publicKey := (verifyingKeyToBytes key.verifyingKey).bytes
  ⟨sha256 publicKey, publicKey, key.verifyingKey, .efuse key⟩

def sign (identity : IdentityManager) (message : List UInt8) : Except ContractError (List UInt8) :=
  match identity.backend with
  | .software signingKey => .ok (signatureToBytes (Signing.sign signingKey message)).bytes
  | .efuse key =>
    match key.sign message with
    | none => .error .identity
    | some signature => .ok (signatureToBytes signature).bytes

/-- the fields agree with the key that signs -/
structure WellFormed (identity : IdentityManager) : Prop where
  peerId : identity.peerId = sha256 identity.publicKey
  publicKey : identity.publicKey = (verifyingKeyToBytes identity.verifyingKey).bytes
  signs : ∀ message bytes, identity.sign message = .ok bytes → ∃ signature,
    bytes = (signatureToBytes signature).bytes ∧ verify identity.verifyingKey message signature = true

theorem wellFormed_software (signingKey : SigningKey) : (fromSoftwareSigningKey signingKey).WellFormed where
  peerId := rfl
  publicKey := rfl
  signs := by
    intro message bytes h
    cases h
    exact ⟨Signing.sign signingKey message, rfl, Signing.verify_sign signingKey message⟩

theorem wellFormed_efuse (key : EfuseKey) : (fromEfuseBlock key).WellFormed where
  peerId := rfl
  publicKey := rfl
  signs := by
    intro message bytes h
    simp only [sign, fromEfuseBlock] at h
    split at h
    · cases h
    · rename_i signature hsign
      cases h
      exact ⟨signature, rfl, key.sound message signature hsign⟩

end IdentityManager

/-- what a start finds on the chip: the block with an ECDSA key as it loads, and whether the chip can sign with it -/
structure Chip where
  keyBlock : Option (Except String EfuseKey)
  unsupportedRevision : Bool

/-- `IdentityManager::try_efuse` -/
def Chip.tryEfuse (chip : Chip) : Except RuntimeError (Option IdentityManager) :=
  match chip.keyBlock with
  | none => .ok none
  | some block =>
    if chip.unsupportedRevision then .ok none
    else
      match block with
      | .error e => .error (.crypto e)
      | .ok key => .ok (some (.fromEfuseBlock key))

theorem Chip.tryEfuse_wellFormed (chip : Chip) {identity : IdentityManager} (h : chip.tryEfuse = .ok (some identity)) :
    identity.WellFormed := by
  unfold Chip.tryEfuse at h
  split at h
  · cases h
  · split_ifs at h
    · cases h
    split at h
    · cases h
    · cases h
      exact IdentityManager.wellFormed_efuse _

/-- `DEVELOPMENT_IDENTITY_SIGNING_KEY_BYTES` -/
def developmentIdentitySigningKeyBytes : U8Array 32 := ⟨List.replicate 32 7, List.length_replicate⟩

/-- `IdentityManager::select` -/
def Chip.select (chip : Chip) : Except RuntimeError IdentityManager :=
  match chip.tryEfuse with
  | .error e => .error e
  | .ok (some identity) => .ok identity
  | .ok none =>
    match signingKeyFromBytes developmentIdentitySigningKeyBytes with
    | none => .error (.crypto "invalid signing key")
    | some signingKey => .ok (.fromSoftwareSigningKey signingKey)

theorem Chip.select_wellFormed (chip : Chip) {identity : IdentityManager} (h : chip.select = .ok identity) :
    identity.WellFormed := by
  unfold Chip.select at h
  split at h
  · cases h
  · rename_i found hefuse
    cases h
    exact chip.tryEfuse_wellFormed hefuse
  · split at h
    · cases h
    · cases h
      exact IdentityManager.wellFormed_software _

/-! ## The transport identity of erp-runtime -/

variable [Libp2pIdentity]

inductive TransportIdentityAlgorithm where
  | ed25519
  | ecdsaP256
deriving DecidableEq, Repr

structure TransportIdentityRecord where
  algorithm : TransportIdentityAlgorithm
  privateKeyProtobuf : List UInt8

namespace TransportIdentityRecord

/-- in postcard -/
def toBytes (record : TransportIdentityRecord) : List UInt8 :=
  putTag (match record.algorithm with | .ed25519 => 0 | .ecdsaP256 => 1) ++ putVec (fun b => [b]) record.privateKeyProtobuf

def take : Decoder TransportIdentityRecord := do
  let tag ← takeTag
  let algorithm ← accept (match tag with
    | 0 => some TransportIdentityAlgorithm.ed25519
    | 1 => some .ecdsaP256
    | _ => none)
  let privateKeyProtobuf ← takeVec takeByte
  return ⟨algorithm, privateKeyProtobuf⟩

def fromBytes (bytes : List UInt8) : Option TransportIdentityRecord := (take bytes).map Prod.fst

omit [Crypto] [Signing] [Libp2pIdentity] in
theorem fromBytes_toBytes {record : TransportIdentityRecord} (h : record.privateKeyProtobuf.length < 2 ^ 64) :
    fromBytes record.toBytes = some record := by
  obtain ⟨algorithm, privateKeyProtobuf⟩ := record
  have hvec : Decodes (takeVec takeByte) (putVec (fun b => [b]) privateKeyProtobuf) privateKeyProtobuf :=
    decodes_vec h fun b _ => decodes_byte b
  have hdecodes : Decodes take (toBytes ⟨algorithm, privateKeyProtobuf⟩) ⟨algorithm, privateKeyProtobuf⟩ := by
    have hfields (a : TransportIdentityAlgorithm) : Decodes
        (do return (⟨a, ← takeVec takeByte⟩ : TransportIdentityRecord)) (putVec (fun b => [b]) privateKeyProtobuf)
        ⟨a, privateKeyProtobuf⟩ := hvec.map
    cases algorithm with
    | ed25519 =>
      refine Decodes.bind (decodes_tag (n := 0) (by decide)) ?_
      exact Decodes.bind (e := []) (decodes_accept rfl) (hfields _)
    | ecdsaP256 =>
      refine Decodes.bind (decodes_tag (n := 1) (by decide)) ?_
      exact Decodes.bind (e := []) (decodes_accept rfl) (hfields _)
  have hread := hdecodes []
  rw [List.append_nil] at hread
  rw [fromBytes, hread]
  rfl

end TransportIdentityRecord

inductive TransportIdentityBackend where
  | software (keypair : Keypair)
  | hardware (identity : IdentityManager)

structure TransportIdentityManager where
  algorithm : TransportIdentityAlgorithm
  peerIdBytes : List UInt8
  publicKeyProtobufBytes : List UInt8
  backend : TransportIdentityBackend

namespace TransportIdentityManager

def algorithmFromKeyType : KeyType → Except RuntimeError TransportIdentityAlgorithm
  | .ecdsa => .ok .ecdsaP256
  | .ed25519 => .ok .ed25519
  | .other => .error (.config "unsupported libp2p transport identity algorithm")

def fromKeypair (keypair : Keypair) : Except RuntimeError TransportIdentityManager := do
  let algorithm ← algorithmFromKeyType (Libp2pIdentity.keyType keypair)
  let publicKey := Libp2pIdentity.publicKey keypair
  return ⟨algorithm, Libp2pIdentity.toPeerId publicKey, Libp2pIdentity.encodeProtobuf publicKey, .software keypair⟩

def fromHardwareIdentity (identity : IdentityManager) : Except RuntimeError TransportIdentityManager :=
  match Libp2pIdentity.ecdsaTryFromBytes identity.publicKey with
  | none => .error (.crypto "failed to convert hardware public key into libp2p ECDSA identity")
  | some publicKey =>
    .ok ⟨.ecdsaP256, Libp2pIdentity.toPeerId publicKey, Libp2pIdentity.encodeProtobuf publicKey, .hardware identity⟩

def fromRecord (record : TransportIdentityRecord) : Except RuntimeError TransportIdentityManager :=
  match Libp2pIdentity.fromProtobufEncoding record.privateKeyProtobuf with
  | none => .error (.crypto "failed to decode persisted transport identity keypair")
  | some keypair => do
    let algorithm ← algorithmFromKeyType (Libp2pIdentity.keyType keypair)
    if algorithm ≠ record.algorithm then throw (.crypto "transport identity algorithm does not match persisted keypair")
    else fromKeypair keypair

def sign (identity : TransportIdentityManager) (message : List UInt8) : Except RuntimeError (List UInt8) :=
  match identity.backend with
  | .software keypair =>
    match Libp2pIdentity.sign keypair message with
    | none => .error (.crypto "failed to sign message with transport identity")
    | some signature => .ok signature
  | .hardware identity =>
    match identity.sign message with
    | .error _ => .error (.crypto "failed to sign message with hardware transport identity")
    | .ok rawSignature =>
      match (U8Array.ofList? 64 rawSignature).bind signatureFromBytes with
      | none => .error (.crypto "hardware transport signature was not a valid P-256 signature")
      | some signature => .ok (Libp2pIdentity.toDer signature)

/-- the fields belong to one public key, under which the signatures verify -/
structure Of (identity : TransportIdentityManager) (publicKey : PublicKey) : Prop where
  peerId : identity.peerIdBytes = Libp2pIdentity.toPeerId publicKey
  protobuf : identity.publicKeyProtobufBytes = Libp2pIdentity.encodeProtobuf publicKey
  signs : ∀ message signature, identity.sign message = .ok signature →
    Libp2pIdentity.verify publicKey message signature = true

theorem of_fromKeypair {keypair : Keypair} {identity : TransportIdentityManager} (h : fromKeypair keypair = .ok identity) :
    identity.Of (Libp2pIdentity.publicKey keypair) := by
  unfold fromKeypair at h
  cases halg : algorithmFromKeyType (Libp2pIdentity.keyType keypair) with
  | error e =>
    rw [halg] at h
    cases h
  | ok algorithm =>
    rw [halg] at h
    cases h
    refine ⟨rfl, rfl, fun message signature hsign => ?_⟩
    simp only [sign] at hsign
    split at hsign
    · cases hsign
    · rename_i s hs
      cases hsign
      exact Libp2pIdentity.verify_sign hs

theorem of_fromHardwareIdentity {hardware : IdentityManager} {identity : TransportIdentityManager}
    (hwf : hardware.WellFormed) (h : fromHardwareIdentity hardware = .ok identity) : ∃ publicKey, identity.Of publicKey := by
  unfold fromHardwareIdentity at h
  split at h
  · cases h
  · rename_i publicKey hkey
    cases h
    refine ⟨publicKey, rfl, rfl, fun message signature hsign => ?_⟩
    simp only [sign] at hsign
    split at hsign
    · cases hsign
    · rename_i rawSignature hraw
      obtain ⟨s, rfl, hverify⟩ := hwf.signs message rawSignature hraw
      rw [U8Array.ofList?_bytes, Option.bind_some, Crypto.signature_round_trip] at hsign
      cases hsign
      exact Libp2pIdentity.verify_der (hwf.publicKey ▸ hkey) hverify

theorem fromRecord_keypair {record : TransportIdentityRecord} {identity : TransportIdentityManager}
    (h : fromRecord record = .ok identity) : ∃ keypair,
      Libp2pIdentity.fromProtobufEncoding record.privateKeyProtobuf = some keypair ∧ fromKeypair keypair = .ok identity := by
  unfold fromRecord at h
  split at h
  · cases h
  · rename_i keypair hkeypair
    cases halg : algorithmFromKeyType (Libp2pIdentity.keyType keypair) with
    | error e =>
      rw [halg] at h
      cases h
    | ok algorithm =>
      rw [halg] at h
      change (if algorithm ≠ record.algorithm then _ else _) = _ at h
      split_ifs at h
      · exact ⟨keypair, hkeypair, h⟩

end TransportIdentityManager

/-! ### Starts on one chip -/

/-- `EspError` -/
abbrev EspError := ℤ

inductive StartError where
  | runtime (error : RuntimeError)
  | esp (error : EspError)

/-- what becomes of the write to flash, also if the power goes: done, or failed or cut off with the record stored or not -/
inductive FlashWrite where
  | done
  | failed (error : EspError) (stored : Bool)
  | cut (stored : Bool)

/-- what a start meets in flash, and the key it would generate -/
structure FlashStart where
  opened : Except EspError Unit
  len : Except EspError Unit
  read : Except EspError Unit
  generated : Keypair
  write : FlashWrite

namespace TransportIdentityManager

def loadRecord (start : FlashStart) (cell : Option (List UInt8)) : Except StartError (Option TransportIdentityRecord) :=
  match start.len, cell with
  | .error e, _ => .error (.esp e)
  | .ok _, none => .ok none
  | .ok _, some bytes =>
    match start.read with
    | .error e => .error (.esp e)
    | .ok _ =>
      match TransportIdentityRecord.fromBytes bytes with
      | none => .error (.runtime (.crypto "invalid persisted transport identity record"))
      | some record => .ok (some record)

/-- `load_or_create`: what is under `transport_id` afterwards, and the result unless the start is cut off -/
def loadOrCreate (chip : Chip) (start : FlashStart) (cell : Option (List UInt8)) :
    Option (List UInt8) × Option (Except StartError TransportIdentityManager) :=
  match chip.tryEfuse with
  | .error e => (cell, some (.error (.runtime e)))
  | .ok (some identity) => (cell, some ((fromHardwareIdentity identity).mapError .runtime))
  | .ok none =>
    match start.opened with
    | .error e => (cell, some (.error (.esp e)))
    | .ok _ =>
      match loadRecord start cell with
      | .error e => (cell, some (.error e))
      | .ok (some record) => (cell, some ((fromRecord record).mapError .runtime))
      | .ok none =>
        match Libp2pIdentity.toProtobufEncoding start.generated with
        | none => (cell, some (.error (.runtime (.crypto "failed to encode transport identity keypair"))))
        | some privateKeyProtobuf =>
          let record : TransportIdentityRecord := ⟨.ecdsaP256, privateKeyProtobuf⟩
          match start.write with
          | .done => (some record.toBytes, some ((fromRecord record).mapError .runtime))
          | .failed e stored => (if stored then some record.toBytes else cell, some (.error (.esp e)))
          | .cut stored => (if stored then some record.toBytes else cell, none)

/-- start after start, with the results of those that were not cut off -/
def starts (chip : Chip) : List FlashStart → Option (List UInt8) →
    Option (List UInt8) × List (Option (Except StartError TransportIdentityManager))
  | [], cell => (cell, [])
  | start :: rest, cell =>
    let (cell, result) := loadOrCreate chip start cell
    let (cell, results) := starts chip rest cell
    (cell, result :: results)

/-- the identity as flash keeps it -/
def inFlash : Once TransportIdentityManager (List UInt8) where
  Encodes identity bytes := ∃ record, record.privateKeyProtobuf.length < 2 ^ 64 ∧ fromRecord record = .ok identity ∧
    bytes = record.toBytes
  decode bytes := (TransportIdentityRecord.fromBytes bytes).bind fun record => (fromRecord record).toOption

theorem inFlash_decode (bytes : List UInt8) : inFlash.decode bytes =
    (TransportIdentityRecord.fromBytes bytes).bind fun record => (fromRecord record).toOption := rfl

theorem inFlash_lawful : inFlash.Lawful := by
  rintro identity bytes ⟨record, hlen, hrecord, rfl⟩
  rw [inFlash_decode, TransportIdentityRecord.fromBytes_toBytes hlen, Option.bind_some, hrecord]
  rfl

/-- the identity of a result -/
def returned (result : Option (Except StartError TransportIdentityManager)) : Option TransportIdentityManager :=
  result.bind Except.toOption

theorem returned_mapError (r : Except RuntimeError TransportIdentityManager) :
    returned (some (r.mapError .runtime)) = r.toOption := by
  cases r <;> rfl

omit [Signing] in
theorem loadRecord_some {start : FlashStart} {cell : Option (List UInt8)} {record : TransportIdentityRecord}
    (h : loadRecord start cell = .ok (some record)) :
    ∃ bytes, cell = some bytes ∧ TransportIdentityRecord.fromBytes bytes = some record := by
  unfold loadRecord at h
  split at h
  · cases h
  · cases h
  · split at h
    · cases h
    · split at h
      · cases h
      · rename_i found hfound
        cases h
        exact ⟨_, rfl, hfound⟩

omit [Signing] in
theorem loadRecord_none {start : FlashStart} {cell : Option (List UInt8)} (h : loadRecord start cell = .ok none) :
    cell = none := by
  unfold loadRecord at h
  split at h
  · cases h
  · rfl
  · split at h
    · cases h
    · split at h <;> cases h

/-- without a key in the fuses, a start is a start of the cell in flash -/
theorem loadOrCreate_step {chip : Chip} (hchip : chip.tryEfuse = .ok none) (start : FlashStart) (cell : Option (List UInt8)) :
    Once.Step inFlash cell (returned (loadOrCreate chip start cell).2) (loadOrCreate chip start cell).1 := by
  unfold loadOrCreate
  rw [hchip]
  dsimp only
  split
  · exact .failed cell
  · split
    · exact .failed cell
    · rename_i record hrecord
      obtain ⟨bytes, rfl, hbytes⟩ := loadRecord_some hrecord
      rw [returned_mapError]
      cases hfrom : fromRecord record with
      | error e => exact .failed _
      | ok identity =>
        refine .read ?_
        rw [inFlash_decode, hbytes, Option.bind_some, hfrom]
        rfl
    · rename_i hnone
      obtain rfl := loadRecord_none hnone
      split
      · exact .failed none
      · rename_i privateKeyProtobuf hencoded
        split
        · rw [returned_mapError]
          cases hfrom : fromRecord ⟨.ecdsaP256, privateKeyProtobuf⟩ with
          | error e => exact .lost _
          | ok identity => exact .created ⟨_, Libp2pIdentity.encoding_fits hencoded, hfrom, rfl⟩
        · split_ifs
          · exact .lost _
          · exact .failed none
        · split_ifs
          · exact .lost _
          · exact .failed none

theorem starts_run {chip : Chip} (hchip : chip.tryEfuse = .ok none) (list : List FlashStart) (cell : Option (List UInt8)) :
    Once.Run inFlash cell ((starts chip list cell).2.map returned) (starts chip list cell).1 := by
  induction list generalizing cell with
  | nil => exact .nil cell
  | cons start rest ih => exact .cons (loadOrCreate_step hchip start cell) (ih _)

/-- with one that does not load or has it, every result is the same -/
theorem starts_efuse {chip : Chip} (hchip : chip.tryEfuse ≠ .ok none) (list : List FlashStart) (cell : Option (List UInt8)) :
    (starts chip list cell).1 = cell ∧
      ∀ r ∈ (starts chip list cell).2, ∀ start, r = (loadOrCreate chip start none).2 := by
  have hsame (start start' : FlashStart) (cell cell' : Option (List UInt8)) :
      (loadOrCreate chip start cell).1 = cell ∧
        (loadOrCreate chip start cell).2 = (loadOrCreate chip start' cell').2 := by
    unfold loadOrCreate
    split
    · exact ⟨rfl, rfl⟩
    · exact ⟨rfl, rfl⟩
    · rename_i hnone
      exact absurd hnone hchip
  induction list with
  | nil => exact ⟨rfl, fun r hr => absurd hr List.not_mem_nil⟩
  | cons start rest ih =>
    have hcell := (hsame start start cell cell).1
    simp only [starts]
    rw [hcell]
    refine ⟨ih.1, List.forall_mem_cons.2 ⟨fun start' => (hsame start start' cell none).2, ih.2⟩⟩

theorem mem_starts {chip : Chip} {list : List FlashStart} {cell : Option (List UInt8)}
    {r : Option (Except StartError TransportIdentityManager)} (h : r ∈ (starts chip list cell).2) :
    ∃ start cell', r = (loadOrCreate chip start cell').2 := by
  induction list generalizing cell with
  | nil => exact absurd h List.not_mem_nil
  | cons start rest ih =>
    rcases List.mem_cons.1 h with rfl | h
    · exact ⟨start, cell, rfl⟩
    · exact ih h

/-- what a start returns belongs to one public key -/
theorem of_loadOrCreate {chip : Chip} {start : FlashStart} {cell : Option (List UInt8)} {identity : TransportIdentityManager}
    (h : (loadOrCreate chip start cell).2 = some (.ok identity)) : ∃ publicKey, identity.Of publicKey := by
  have hrecord {record : TransportIdentityRecord}
      (h : some ((fromRecord record).mapError StartError.runtime) = some (.ok identity)) : ∃ publicKey, identity.Of publicKey := by
    have hok := congrArg returned h
    rw [returned_mapError] at hok
    cases hfrom : fromRecord record with
    | error e =>
      rw [hfrom] at hok
      cases hok
    | ok found =>
      rw [hfrom] at hok
      obtain ⟨keypair, -, hkeypair⟩ := fromRecord_keypair (hfrom.trans (congrArg Except.ok (Option.some.inj hok)))
      exact ⟨_, of_fromKeypair hkeypair⟩
  unfold loadOrCreate at h
  split at h
  · cases h
  · rename_i hardware hefuse
    have hok := congrArg returned h
    rw [returned_mapError] at hok
    cases hfrom : fromHardwareIdentity hardware with
    | error e =>
      rw [hfrom] at hok
      cases hok
    | ok found =>
      rw [hfrom] at hok
      cases hok
      exact of_fromHardwareIdentity (chip.tryEfuse_wellFormed hefuse) hfrom
  · split at h
    · cases h
    · split at h
      · cases h
      · exact hrecord h
      · split at h
        · cases h
        · split at h
          · exact hrecord h
          · cases h
          · cases h

end TransportIdentityManager

/-- **The embedded transport identity lasts.** Over any number of starts on one chip, from any content of flash, each of which
may fail or be cut off anywhere: all starts that succeed have the same transport identity, whose peer id and key bytes are those of
one public key under which its signatures verify; and once something is stored it is never written again. -/
theorem embedded_transport_identity_lasts (chip : Chip) (list : List FlashStart) (cell : Option (List UInt8)) :
    (∀ identity identity', some (.ok identity) ∈ (TransportIdentityManager.starts chip list cell).2 →
      some (.ok identity') ∈ (TransportIdentityManager.starts chip list cell).2 → identity = identity') ∧
    (∀ identity, some (.ok identity) ∈ (TransportIdentityManager.starts chip list cell).2 → ∃ publicKey, identity.Of publicKey) ∧
    ∀ bytes, cell = some bytes → (TransportIdentityManager.starts chip list cell).1 = some bytes := by
  refine ⟨fun identity identity' h h' => ?_, fun identity h => ?_, fun bytes hcell => ?_⟩
  · by_cases hchip : chip.tryEfuse = .ok none
    · have hrun := TransportIdentityManager.starts_run hchip list cell
      exact hrun.agree TransportIdentityManager.inFlash_lawful (List.mem_map.2 ⟨_, h, rfl⟩) (List.mem_map.2 ⟨_, h', rfl⟩)
    · obtain ⟨-, hsame⟩ := TransportIdentityManager.starts_efuse hchip list cell
      cases list with
      | nil => exact absurd h List.not_mem_nil
      | cons start rest =>
        have heq := (hsame _ h start).trans (hsame _ h' start).symm
        exact Except.ok.inj (Option.some.inj heq)
  · obtain ⟨start, cell', hresult⟩ := TransportIdentityManager.mem_starts h
    exact TransportIdentityManager.of_loadOrCreate hresult.symm
  · by_cases hchip : chip.tryEfuse = .ok none
    · exact (TransportIdentityManager.starts_run hchip list cell).kept hcell
    · rw [(TransportIdentityManager.starts_efuse hchip list cell).1, hcell]

end Erp

/-! ## The identities of rp-runtime -/

/-- the errors of rp-runtime that a start meets -/
inductive HostError where
  | crypto (message : String)
  | config (message : String)
  | networkError (error : Erp.IoError)
deriving DecidableEq, Repr

/-- what becomes of `fs::write`, also if the process dies: done, or failed or cut off, before the file was opened or with so
many bytes in it -/
inductive FileWrite where
  | done
  | failed (error : Erp.IoError) (left : Option ℕ)
  | cut (left : Option ℕ)

/-- what is in the file then -/
def FileWrite.leaves (write : FileWrite) (bytes : List UInt8) (file : Option (List UInt8)) : Option (List UInt8) :=
  match write with
  | .done => some bytes
  | .failed _ none | .cut none => file
  | .failed _ (some n) | .cut (some n) => some (bytes.take n)

/-- what a start meets at a file -/
structure FileAccess where
  /-- whether the metadata of a file that is there can be read -/
  stat : Bool
  read : Except Erp.IoError Unit
  write : FileWrite

/-- `load_or_create` of both: read the file if `path.exists()`, else write a fresh key. What is in the file afterwards, and the
result unless the start is cut off. -/
def loadOrCreateFile {K : Type} (decode : List UInt8 → Except HostError K) (encode : K → Except HostError (List UInt8))
    (access : FileAccess) (fresh : K) (file : Option (List UInt8)) : Option (List UInt8) × Option (Except HostError K) :=
  match if access.stat then file else none with
  | some bytes =>
    match access.read with
    | .error e => (file, some (.error (.networkError e)))
    | .ok _ => (file, some (decode bytes))
  | none =>
    match encode fresh with
    | .error e => (file, some (.error e))
    | .ok bytes =>
      (access.write.leaves bytes file,
        match access.write with
        | .done => some (.ok fresh)
        | .failed e _ => some (.error (.networkError e))
        | .cut _ => none)

structure HostNodeIdentity where
  signingKey : SigningKey
  publicKey : List UInt8
  peerId : PeerId

namespace HostNodeIdentity

def fromSigningKey (signingKey : SigningKey) : HostNodeIdentity :=
  let publicKey := (verifyingKeyToBytes (Signing.verifyingKey signingKey)).bytes
  ⟨signingKey, publicKey, sha256 publicKey⟩

def buildSignature (identity : HostNodeIdentity) (message : List UInt8) : List UInt8 :=
  (signatureToBytes (Signing.sign identity.signingKey message)).bytes

def decode (bytes : List UInt8) : Except HostError SigningKey :=
  match U8Array.ofList? 32 bytes with
  | none => .error (.config "invalid persisted node identity bytes")
  | some privateKey =>
    match signingKeyFromBytes privateKey with
    | none => .error (.crypto "invalid signing key")
    | some signingKey => .ok signingKey

def encode (signingKey : SigningKey) : Except HostError (List UInt8) := .ok (signingKeyToBytes signingKey).bytes

end HostNodeIdentity

variable [Libp2pIdentity]

namespace HostTransportIdentity

def decode (bytes : List UInt8) : Except HostError Keypair :=
  match Libp2pIdentity.fromProtobufEncoding bytes with
  | none => .error (.crypto "invalid persisted transport identity bytes")
  | some keypair => .ok keypair

def encode (keypair : Keypair) : Except HostError (List UInt8) :=
  match Libp2pIdentity.toProtobufEncoding keypair with
  | none => .error (.crypto "failed to encode transport identity keypair")
  | some bytes => .ok bytes

end HostTransportIdentity

/-- the identities of a network manager, with the keys that signing and the swarm use -/
structure HostIdentities where
  node : HostNodeIdentity
  keypair : Keypair
  /-- `HostTransportIdentity` -/
  peerIdBytes : List UInt8

/-- `node_identity.bin` and `transport_identity.bin` -/
structure HostFiles where
  node : Option (List UInt8)
  transport : Option (List UInt8)

/-- what a start meets in the file system, and the keys it would generate -/
structure HostStart where
  createDir : Except Erp.IoError Unit
  node : FileAccess
  nodeFresh : SigningKey
  transport : FileAccess
  transportFresh : Keypair

/-- the start sees the files that are there -/
def HostStart.Sees (start : HostStart) : Prop := start.node.stat = true ∧ start.transport.stat = true

namespace HostIdentities

/-- the first part of `NetworkManager::new_with_config` -/
def load (start : HostStart) (files : HostFiles) : HostFiles × Option (Except HostError HostIdentities) :=
  match start.createDir with
  | .error e => (files, some (.error (.networkError e)))
  | .ok _ =>
    let (node, result) := loadOrCreateFile HostNodeIdentity.decode HostNodeIdentity.encode start.node start.nodeFresh
      files.node
    match result with
    | none => (⟨node, files.transport⟩, none)
    | some (.error e) => (⟨node, files.transport⟩, some (.error e))
    | some (.ok signingKey) =>
      let (transport, result) := loadOrCreateFile HostTransportIdentity.decode HostTransportIdentity.encode
        start.transport start.transportFresh files.transport
      (⟨node, transport⟩, result.map fun r => r.map fun keypair =>
        ⟨.fromSigningKey signingKey, keypair, Libp2pIdentity.toPeerId (Libp2pIdentity.publicKey keypair)⟩)

/-- start after start, with the results of those that were not cut off -/
def starts : List HostStart → HostFiles → HostFiles × List (Option (Except HostError HostIdentities))
  | [], files => (files, [])
  | start :: rest, files =>
    let (files, result) := load start files
    let (files, results) := starts rest files
    (files, result :: results)

/-! ### Starts over one directory -/

/-- a key as a file keeps it -/
def inFile {K : Type} (decode : List UInt8 → Except HostError K) (encode : K → Except HostError (List UInt8)) :
    Once K (List UInt8) where
  Encodes k bytes := encode k = .ok bytes
  decode bytes := (decode bytes).toOption

omit [Crypto] [Signing] [Libp2pIdentity] in
theorem loadOrCreateFile_step {K : Type} (decode : List UInt8 → Except HostError K) (encode : K → Except HostError (List UInt8))
    {access : FileAccess} (hstat : access.stat = true) (fresh : K) (file : Option (List UInt8)) :
    Once.Step (inFile decode encode) file ((loadOrCreateFile decode encode access fresh file).2.bind Except.toOption)
      (loadOrCreateFile decode encode access fresh file).1 := by
  unfold loadOrCreateFile
  rw [hstat, if_pos rfl]
  cases file with
  | some bytes =>
    dsimp only
    split
    · exact .failed _
    · cases hdecode : decode bytes with
      | error e => exact .failed _
      | ok k => exact .read (congrArg Except.toOption hdecode)
  | none =>
    dsimp only
    split
    · exact .failed none
    · rename_i bytes hencode
      rcases access.write with _ | ⟨e, _ | n⟩ | _ | n
      · exact .created hencode
      · exact .failed none
      · exact .lost _
      · exact .failed none
      · exact .lost _

/-- the node key as its file keeps it -/
def nodeFile : Once SigningKey (List UInt8) := inFile HostNodeIdentity.decode HostNodeIdentity.encode

/-- the transport key as its file keeps it -/
def transportFile : Once Keypair (List UInt8) := inFile HostTransportIdentity.decode HostTransportIdentity.encode

omit [Libp2pIdentity] in
theorem nodeFile_lawful : nodeFile.Lawful := by
  intro signingKey bytes h
  cases h
  simp only [nodeFile, inFile, HostNodeIdentity.decode, U8Array.ofList?_bytes, Signing.signing_key_round_trip]
  rfl

omit [Signing] in
theorem transportFile_lawful : transportFile.Lawful := by
  intro keypair bytes h
  simp only [transportFile, inFile, HostTransportIdentity.encode] at h
  split at h
  · cases h
  · rename_i encoded hencoded
    cases h
    simp only [transportFile, inFile, HostTransportIdentity.decode, Libp2pIdentity.keypair_round_trip hencoded]
    rfl

/-- a file that ends before a key does -/
def CutShort {K : Type} (encode : K → Except HostError (List UInt8)) (bytes : List UInt8) : Prop :=
  ∃ k encoded, encode k = .ok encoded ∧ bytes <+: encoded ∧ bytes ≠ encoded

omit [Libp2pIdentity] in
theorem nodeFile_cut {bytes : List UInt8} (h : CutShort HostNodeIdentity.encode bytes) : nodeFile.decode bytes = none := by
  obtain ⟨signingKey, encoded, hencoded, hprefix, hne⟩ := h
  cases hencoded
  have hlen : bytes.length ≠ 32 := by
    intro hlen
    exact hne (List.IsPrefix.eq_of_length hprefix (hlen.trans (signingKeyToBytes signingKey).size_eq.symm))
  simp only [nodeFile, inFile, HostNodeIdentity.decode, U8Array.ofList?, dif_neg hlen]
  rfl

omit [Signing] in
theorem transportFile_cut {bytes : List UInt8} (h : CutShort HostTransportIdentity.encode bytes) :
    transportFile.decode bytes = none := by
  obtain ⟨keypair, encoded, hencoded, hprefix, hne⟩ := h
  unfold HostTransportIdentity.encode at hencoded
  split at hencoded
  · cases hencoded
  · rename_i protobuf hprotobuf
    cases hencoded
    simp only [transportFile, inFile, HostTransportIdentity.decode, Libp2pIdentity.keypair_cut hprotobuf hprefix hne]
    rfl

/-- the identities with these keys -/
def ofKeys (signingKey : SigningKey) (keypair : Keypair) : HostIdentities :=
  ⟨.fromSigningKey signingKey, keypair, Libp2pIdentity.toPeerId (Libp2pIdentity.publicKey keypair)⟩

/-- a start is a start of either file, and what it returns are the keys that both gave -/
theorem load_steps {start : HostStart} (hsees : start.Sees) (files : HostFiles) : ∃ signingKey keypair,
    Once.Step nodeFile files.node signingKey (load start files).1.node ∧
      Once.Step transportFile files.transport keypair (load start files).1.transport ∧
      ∀ ids, (load start files).2 = some (.ok ids) →
        ∃ s k, signingKey = some s ∧ keypair = some k ∧ ids = ofKeys s k := by
  have hnode := loadOrCreateFile_step HostNodeIdentity.decode HostNodeIdentity.encode hsees.1 start.nodeFresh files.node
  have htransport := loadOrCreateFile_step HostTransportIdentity.decode HostTransportIdentity.encode hsees.2
    start.transportFresh files.transport
  unfold load
  split
  · exact ⟨none, none, .failed _, .failed _, fun ids h => by cases h⟩
  · generalize loadOrCreateFile HostNodeIdentity.decode HostNodeIdentity.encode start.node start.nodeFresh
      files.node = node at hnode ⊢
    obtain ⟨file, result⟩ := node
    rcases result with - | e | signingKey
    · exact ⟨none, none, hnode, .failed _, fun ids h => by cases h⟩
    · exact ⟨none, none, hnode, .failed _, fun ids h => by cases h⟩
    · generalize loadOrCreateFile HostTransportIdentity.decode HostTransportIdentity.encode
        start.transport start.transportFresh files.transport = transport at htransport ⊢
      obtain ⟨file', result'⟩ := transport
      refine ⟨_, _, hnode, htransport, fun ids h => ?_⟩
      rcases result' with - | e | keypair
      · cases h
      · cases h
      · cases h
        exact ⟨signingKey, keypair, rfl, rfl, rfl⟩

theorem starts_runs {list : List HostStart} (hsees : ∀ start ∈ list, start.Sees) (files : HostFiles) :
    ∃ signingKeys keypairs,
    Once.Run nodeFile files.node signingKeys (starts list files).1.node ∧
      Once.Run transportFile files.transport keypairs (starts list files).1.transport ∧
      ∀ ids, some (.ok ids) ∈ (starts list files).2 →
        ∃ s k, some s ∈ signingKeys ∧ some k ∈ keypairs ∧ ids = ofKeys s k := by
  induction list generalizing files with
  | nil => exact ⟨[], [], .nil _, .nil _, fun ids h => absurd h List.not_mem_nil⟩
  | cons start rest ih =>
    obtain ⟨hstart, hrest⟩ := List.forall_mem_cons.1 hsees
    obtain ⟨signingKey, keypair, hnode, htransport, hresult⟩ := load_steps hstart files
    obtain ⟨signingKeys, keypairs, hnodes, htransports, hresults⟩ := ih hrest (load start files).1
    refine ⟨signingKey :: signingKeys, keypair :: keypairs, .cons hnode hnodes, .cons htransport htransports,
      fun ids h => ?_⟩
    rcases List.mem_cons.1 h with heq | h
    · obtain ⟨s, k, rfl, rfl, rfl⟩ := hresult ids heq.symm
      exact ⟨s, k, List.mem_cons_self, List.mem_cons_self, rfl⟩
    · obtain ⟨s, k, hs, hk, rfl⟩ := hresults ids h
      exact ⟨s, k, List.mem_cons_of_mem _ hs, List.mem_cons_of_mem _ hk, rfl⟩

end HostIdentities

/-- **The identities of a host last.** Over any number of starts over one directory, from any content of its two files, each of
which may fail or be cut off anywhere, also in the middle of a file, but sees the files that are there: all starts that succeed
have the same node identity and the same transport identity; a file that is there stays as it is; and over a file that was cut
short, or does not read for another reason, no start succeeds. -/
theorem host_identities_last (list : List HostStart) (files : HostFiles) (hsees : ∀ start ∈ list, start.Sees) :
    (∀ ids ids', some (.ok ids) ∈ (HostIdentities.starts list files).2 →
      some (.ok ids') ∈ (HostIdentities.starts list files).2 → ids = ids') ∧
    (∀ bytes, files.node = some bytes → (HostIdentities.starts list files).1.node = some bytes ∧
      (HostIdentities.CutShort HostNodeIdentity.encode bytes ∨ (HostNodeIdentity.decode bytes).toOption = none →
        ∀ ids, some (.ok ids) ∉ (HostIdentities.starts list files).2)) ∧
    ∀ bytes, files.transport = some bytes → (HostIdentities.starts list files).1.transport = some bytes ∧
      (HostIdentities.CutShort HostTransportIdentity.encode bytes ∨ (HostTransportIdentity.decode bytes).toOption = none →
        ∀ ids, some (.ok ids) ∉ (HostIdentities.starts list files).2) := by
  obtain ⟨signingKeys, keypairs, hnode, htransport, hresults⟩ := HostIdentities.starts_runs hsees files
  refine ⟨fun ids ids' h h' => ?_, fun bytes hbytes => ⟨hnode.kept hbytes, fun hbad ids h => ?_⟩,
    fun bytes hbytes => ⟨htransport.kept hbytes, fun hbad ids h => ?_⟩⟩
  · obtain ⟨s, k, hs, hk, rfl⟩ := hresults ids h
    obtain ⟨s', k', hs', hk', rfl⟩ := hresults ids' h'
    rw [hnode.agree HostIdentities.nodeFile_lawful hs hs', htransport.agree HostIdentities.transportFile_lawful hk hk']
  · obtain ⟨s, k, hs, -, -⟩ := hresults ids h
    have hdecode : HostIdentities.nodeFile.decode bytes = none := hbad.elim HostIdentities.nodeFile_cut id
    exact Option.some_ne_none s (hnode.silent ⟨bytes, hbytes, hdecode⟩ _ hs)
  · obtain ⟨s, k, -, hk, -⟩ := hresults ids h
    have hdecode : HostIdentities.transportFile.decode bytes = none := hbad.elim HostIdentities.transportFile_cut id
    exact Option.some_ne_none k (htransport.silent ⟨bytes, hbytes, hdecode⟩ _ hk)

end Identity

namespace Sample

/-! ## Signing keys and transport keys over the sample signature -/

/-- the verifying key of a signing key -/
def keyOf (k : U8Array 32) : PublicKeyBytes := ⟨0 :: k.bytes, by rw [List.length_cons, k.size_eq]⟩

scoped instance signing : Signing where
  SigningKey := U8Array 32
  verifyingKey := keyOf
  sign k m := sign (keyOf k) m
  signingKeyToBytes := id
  signingKeyFromBytes := some
  verify_sign _ _ := decide_eq_true rfl
  signing_key_round_trip _ := rfl

scoped instance libp2pIdentity : Libp2pIdentity where
  Keypair := PublicKeyBytes
  PublicKey := PublicKeyBytes
  keyType _ := .ecdsa
  publicKey := id
  toProtobufEncoding k := some k.bytes
  fromProtobufEncoding := U8Array.ofList? publicKeySize
  encodeProtobuf k := k.bytes
  tryDecodeProtobuf := U8Array.ofList? publicKeySize
  toPeerId k := k.bytes
  sign k m := some (sign k m).bytes
  verify k m s := decide (s = (sign k m).bytes)
  ecdsaTryFromBytes := U8Array.ofList? publicKeySize
  toDer s := s.bytes
  encoding_fits := by
    intro k bytes h
    cases h
    rw [k.size_eq]
    decide
  keypair_round_trip := by
    intro k bytes h
    cases h
    exact U8Array.ofList?_bytes k
  keypair_cut := by
    intro k bytes p h hprefix hne
    cases h
    have hlen : p.length ≠ publicKeySize := by
      intro hlen
      exact hne (List.IsPrefix.eq_of_length hprefix (hlen.trans k.size_eq.symm))
    rw [U8Array.ofList?, dif_neg hlen]
  public_key_round_trip k := U8Array.ofList?_bytes k
  encode_ne_nil k h := absurd (congrArg List.length h) (by rw [k.size_eq]; decide)
  verify_sign := by
    intro k m s h
    cases h
    exact decide_eq_true rfl
  verify_nil k m := decide_eq_false fun h => absurd (congrArg List.length h) (by rw [(sign k m).size_eq]; decide)
  verify_der := by
    intro key k m s hkey hverify
    have heq : key.bytes = k.bytes := U8Array.eq_of_ofList? hkey
    have hk : key = k := by
      cases key
      cases k
      cases heq
      rfl
    subst hk
    exact decide_eq_true (congrArg U8Array.bytes (of_decide_eq_true hverify))

end Sample

section Witness

open Sample

/-- a chip without a key in its fuses -/
def bareChip : Erp.Chip := ⟨none, false⟩

/-- a key that signs in the chip -/
def efuseKey : Erp.EfuseKey where
  verifyingKey := key 5
  sign m := some (sign (key 5) m)
  sound := by
    intro m s h
    cases h
    exact decide_eq_true rfl

def fusedChip : Erp.Chip := ⟨some (.ok efuseKey), false⟩

/-- the first start is cut off before its key is in flash, each start generates another key -/
def flashStarts : List Erp.FlashStart :=
  [⟨.ok (), .ok (), .ok (), key 1, .cut false⟩, ⟨.ok (), .ok (), .ok (), key 2, .done⟩,
    ⟨.ok (), .error 261, .ok (), key 3, .done⟩, ⟨.ok (), .ok (), .ok (), key 4, .done⟩]

/-- the peer ids of the starts that succeed -/
def startedAs (chip : Erp.Chip) : List (Option (List UInt8)) :=
  (Erp.TransportIdentityManager.starts chip flashStarts none).2.map fun result =>
    (Erp.TransportIdentityManager.returned result).map Erp.TransportIdentityManager.peerIdBytes

theorem embedded_transport_identity_lasts_of_starts :
    startedAs bareChip = [none, some (key 2).bytes, none, some (key 2).bytes] ∧
      startedAs fusedChip = List.replicate 4 (some (key 5).bytes) ∧
      ∀ chip ∈ [bareChip, fusedChip], ∀ identity identity',
        some (.ok identity) ∈ (Erp.TransportIdentityManager.starts chip flashStarts none).2 →
        some (.ok identity') ∈ (Erp.TransportIdentityManager.starts chip flashStarts none).2 → identity = identity' :=
  ⟨by decide +kernel, by decide +kernel, fun chip _ => (Erp.embedded_transport_identity_lasts chip flashStarts none).1⟩

def seenFile (write : FileWrite) : FileAccess := ⟨true, .ok (), write⟩

/-- the first start writes the node key only; the third cannot read it -/
def hostStarts : List HostStart :=
  [⟨.ok (), seenFile .done, U8Array.zero 32, seenFile (.failed ⟨.other, "io error"⟩ none), key 1⟩,
    ⟨.ok (), seenFile .done, ⟨List.replicate 32 2, List.length_replicate⟩, seenFile .done, key 2⟩,
    ⟨.ok (), ⟨true, .error ⟨.other, "io error"⟩, .done⟩, U8Array.zero 32, seenFile .done, key 3⟩,
    ⟨.ok (), seenFile .done, ⟨List.replicate 32 4, List.length_replicate⟩, seenFile .done, key 4⟩]

theorem hostStarts_see : ∀ start ∈ hostStarts, start.Sees := by
  intro start hstart
  simp only [hostStarts, List.mem_cons, List.not_mem_nil, or_false] at hstart
  rcases hstart with rfl | rfl | rfl | rfl <;> exact ⟨rfl, rfl⟩

/-- the keys of the starts that succeed -/
def hostKeys : List (Option (List UInt8 × List UInt8)) :=
  (HostIdentities.starts hostStarts ⟨none, none⟩).2.map fun result =>
    (result.bind Except.toOption).map fun ids => (ids.node.publicKey, ids.peerIdBytes)

theorem host_identities_last_of_starts :
    hostKeys = [none, some (List.replicate 33 0, (key 2).bytes), none, some (List.replicate 33 0, (key 2).bytes)] ∧
      (∀ ids ids', some (.ok ids) ∈ (HostIdentities.starts hostStarts ⟨none, none⟩).2 →
        some (.ok ids') ∈ (HostIdentities.starts hostStarts ⟨none, none⟩).2 → ids = ids') ∧
      ∀ ids, some (.ok ids) ∉ (HostIdentities.starts hostStarts ⟨some (List.replicate 20 0), none⟩).2 := by
  refine ⟨by decide +kernel, (host_identities_last hostStarts ⟨none, none⟩ hostStarts_see).1, ?_⟩
  have hcut : HostIdentities.CutShort HostNodeIdentity.encode (List.replicate 20 0) :=
    ⟨U8Array.zero 32, _, rfl, ⟨List.replicate 12 0, by decide⟩, by decide⟩
  exact ((host_identities_last hostStarts ⟨some (List.replicate 20 0), none⟩ hostStarts_see).2.1 _ rfl).2 (.inl hcut)

end Witness

end RustProof
