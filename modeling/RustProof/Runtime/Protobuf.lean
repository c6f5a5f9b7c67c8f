/-
The protobuf messages of erp-runtime that are written and read by hand: `IdentifyMessage` (`protocol/identify.rs`) and the
payload of the noise handshake with its nested extensions (`transport/noise.rs`).

A message is a series of fields, each a tag and a body; its reader turns over the fields until its bytes are used up, and
leaves those with a tag it does not know to `read_unknown`. Tags, sizes and the rules of what is left out are given once for
the writer and once for the reader.

The tags, lengths and bodies themselves are read and written by the crate `quick_protobuf`: a parameter with the laws of
its documentation, among them that it reads back what it wrote, whatever its length.

Results:
- `applied_fields`, for each message: what its own fields do, read in the order in which they are written;
- `NoiseExtensions.getSize_eq`: the length in front of the nested message is that of what is written behind it;
- `protobuf_messages_round_trip`: every message is read back, also with unknown fields anywhere in it or in the nested one.
-/
import RustProof.Lib.Fields
import RustProof.Runtime.Multistream

namespace RustProof

/-- the body of a field that a reader can skip by its wire type (the low three bits of the tag) -/
inductive Skippable (writeVarint : ℕ → List UInt8) (tag : UInt32) : List UInt8 → Prop
  | varint {init : List UInt8} {last : UInt8} : tag &&& 7 = 0 → (∀ b ∈ init, b &&& 0x80 ≠ 0) → last &&& 0x80 = 0 →
    init.length < 10 → Skippable writeVarint tag (init ++ [last])
  | fixed64 {body : List UInt8} : tag &&& 7 = 1 → body.length = 8 → Skippable writeVarint tag body
  | lengthDelimited (body : List UInt8) : tag &&& 7 = 2 → Skippable writeVarint tag (writeVarint body.length ++ body)
  | fixed32 {body : List UInt8} : tag &&& 7 = 5 → body.length = 4 → Skippable writeVarint tag body

/-- the crate `quick_protobuf`: its reader is given by the bytes of the message that are ahead of it -/
class QuickProtobuf where
  /-- `quick_protobuf::Error` -/
  PbError : Type
  writeVarint : ℕ → List UInt8
  sizeofLen : ℕ → ℕ
  nextTag : Reader PbError UInt8 UInt32
  readBytes : Reader PbError UInt8 (List UInt8)
  readString : Reader PbError UInt8 String
  /-- a message up to its length, by its own `from_reader` -/
  readMessage : {M : Type} → (List UInt8 → Except PbError M) → Reader PbError UInt8 M
  readUnknown : UInt32 → Reader PbError UInt8 Unit
  sizeofLen_eq : ∀ n, sizeofLen n = (writeVarint n).length + n
  /-- numbers of seven bits take one byte -/
  length_writeVarint : ∀ n, n < 128 → (writeVarint n).length = 1
  nextTag_consumes : nextTag.Consumes
  readBytes_moves : readBytes.Moves
  readString_moves : readString.Moves
  readMessage_moves : ∀ {M : Type} (fromReader : List UInt8 → Except PbError M), (readMessage fromReader).Moves
  readUnknown_moves : ∀ tag, (readUnknown tag).Moves
  nextTag_reads : ∀ tag : UInt32, nextTag.Reads (writeVarint tag.toNat) tag
  readBytes_reads : ∀ value, readBytes.Reads (writeVarint value.length ++ value) value
  readString_reads : ∀ value, readString.Reads (writeVarint (Erp.asBytes value).length ++ Erp.asBytes value) value
  readMessage_reads : ∀ {M : Type} {fromReader : List UInt8 → Except PbError M} {bytes : List UInt8} {m : M},
    fromReader bytes = .ok m → (readMessage fromReader).Reads (writeVarint bytes.length ++ bytes) m
  readUnknown_reads : ∀ {tag : UInt32} {body : List UInt8}, Skippable writeVarint tag body →
    (readUnknown tag).Reads body ()

export QuickProtobuf (PbError writeVarint sizeofLen nextTag readBytes readString readMessage readUnknown)

namespace Erp

section Messages

variable [QuickProtobuf]

/-! ## Writer

What the `Writer` of the crate puts into its buffer. -/

def writeWithTag (tag : UInt32) (body : List UInt8) : List UInt8 := writeVarint tag.toNat ++ body

def writeBytes (value : List UInt8) : List UInt8 := writeVarint value.length ++ value

def writeString (value : String) : List UInt8 := writeBytes (asBytes value)

/-- `Writer::write_message`: the size that the message gives for itself, and what it writes -/
def writeNested (size : ℕ) (message : List UInt8) : List UInt8 := writeVarint size ++ message

omit [QuickProtobuf] in
theorem flatten_optional {α : Type} (f : α → List UInt8) (o : Option α) : (o.toList.map f).flatten = o.elim [] f := by
  cases o <;> simp

omit [QuickProtobuf] in
theorem length_optional {α : Type} (f : α → List UInt8) (o : Option α) :
    (o.elim [] f).length = o.elim 0 fun a => (f a).length := by
  cases o <;> rfl

/-- one byte for the tag, and a length in front of the value -/
theorem length_writeWithTag {tag : UInt32} (htag : tag.toNat < 128) (value : List UInt8) :
    (writeWithTag tag (writeBytes value)).length = 1 + sizeofLen value.length := by
  rw [writeWithTag, writeBytes, List.length_append, List.length_append, QuickProtobuf.length_writeVarint _ htag,
    QuickProtobuf.sizeofLen_eq]

/-! ## Reader -/

section Reader

variable {M : Type} {readField : M → UInt32 → Reader PbError UInt8 M}

/-- one turn of `while !reader.is_eof()` -/
def turn (readField : M → UInt32 → Reader PbError UInt8 M) (message : M) : Reader PbError UInt8 M :=
  nextTag.andThen (readField message)

theorem turn_consumes (hmoves : ∀ message tag, (readField message tag).Moves) (message : M) :
    (turn readField message).Consumes :=
  QuickProtobuf.nextTag_consumes.andThen (hmoves message)

/-- the loop of a `from_reader` -/
def readFields (readField : M → UInt32 → Reader PbError UInt8 M) (hmoves : ∀ message tag, (readField message tag).Moves)
    (message : M) (bytes : List UInt8) : Except PbError M :=
  readAll (turn readField) (turn_consumes hmoves) message bytes

theorem applies_of_reads {tag : UInt32} {body : List UInt8} {g : M → M}
    (h : ∀ message, (readField message tag).Reads body (g message)) :
    Applies (turn readField) (writeWithTag tag body) g := by
  intro message
  exact (QuickProtobuf.nextTag_reads tag).andThen (h message)

section Kinds

variable {α : Type} {x : Reader PbError UInt8 α} {write : α → List UInt8} (readField : M → UInt32 → Reader PbError UInt8 M)

theorem applied_optional (hx : ∀ a, x.Reads (write a) a) (tag : UInt32) (put : M → Option α → M)
    (hnone : ∀ m, put m none = m) (hread : ∀ m, readField m tag = x.map fun a => put m (some a)) (o : Option α) :
    Applied (turn readField) (o.toList.map fun a => writeWithTag tag (write a)) fun m => put m o := by
  apply Applied.optional put hnone
  intro a
  apply applies_of_reads
  intro m
  rw [hread m]
  exact (hx a).map _

theorem applied_repeated (hx : ∀ a, x.Reads (write a) a) (tag : UInt32) (add : M → List α → M)
    (hnil : ∀ m, add m [] = m) (hcons : ∀ m a l, add (add m [a]) l = add m (a :: l))
    (hread : ∀ m, readField m tag = x.map fun a => add m [a]) (l : List α) :
    Applied (turn readField) (l.map fun a => writeWithTag tag (write a)) fun m => add m l := by
  apply Applied.repeated add hnil hcons
  intro a
  apply applies_of_reads
  intro m
  rw [hread m]
  exact (hx a).map _

end Kinds

/-- a field with a tag that is none of these -/
def Unknown (known : List UInt32) (chunk : List UInt8) : Prop :=
  ∃ tag body, tag ∉ known ∧ Skippable writeVarint tag body ∧ chunk = writeWithTag tag body

theorem applies_of_unknown {known : List UInt32}
    (h : ∀ message tag, tag ∉ known → readField message tag = (readUnknown tag).map fun _ => message)
    {chunk : List UInt8} (hchunk : Unknown known chunk) : Applies (turn readField) chunk id := by
  obtain ⟨tag, body, htag, hbody, rfl⟩ := hchunk
  apply applies_of_reads
  intro message
  rw [h message tag htag]
  exact (QuickProtobuf.readUnknown_reads hbody).map _

/-- the loop does what its own fields do, with unknown ones anywhere -/
theorem readFields_inserted {known : List UInt32} (hmoves : ∀ message tag, (readField message tag).Moves)
    (hunknown : ∀ message tag, tag ∉ known → readField message tag = (readUnknown tag).map fun _ => message)
    {fields chunks : List (List UInt8)} {g : M → M} (h : Applied (turn readField) fields g)
    (hins : Inserted (Unknown known) fields chunks) (message : M) :
    readFields readField hmoves message chunks.flatten = .ok (g message) := by
  have happlied := h.inserted (fun _ => applies_of_unknown hunknown) hins
  exact happlied.readAll (turn_consumes hmoves) message

end Reader

/-! ## The identify message -/

structure IdentifyMessage where
  protocolVersion : Option String := none
  agentVersion : Option String := none
  publicKey : Option (List UInt8) := none
  listenAddrs : List (List UInt8) := []
  observedAddr : Option (List UInt8) := none
  protocols : List String := []
  signedPeerRecord : Option (List UInt8) := none
deriving DecidableEq, Repr

namespace IdentifyMessage

def readField (message : IdentifyMessage) (tag : UInt32) : Reader PbError UInt8 IdentifyMessage :=
  if tag = 42 then readString.map fun value => { message with protocolVersion := some value }
  else if tag = 50 then readString.map fun value => { message with agentVersion := some value }
  else if tag = 10 then readBytes.map fun value => { message with publicKey := some value }
  else if tag = 18 then readBytes.map fun value => { message with listenAddrs := message.listenAddrs ++ [value] }
  else if tag = 34 then readBytes.map fun value => { message with observedAddr := some value }
  else if tag = 26 then readString.map fun value => { message with protocols := message.protocols ++ [value] }
  else if tag = 66 then readBytes.map fun value => { message with signedPeerRecord := some value }
  else (readUnknown tag).map fun _ => message

/-- the tags it knows -/
def tags : List UInt32 := [42, 50, 10, 18, 34, 26, 66]

theorem readField_moves (message : IdentifyMessage) (tag : UInt32) : (readField message tag).Moves := by
  unfold readField
  split_ifs
  · exact QuickProtobuf.readString_moves.map _
  · exact QuickProtobuf.readString_moves.map _
  · exact QuickProtobuf.readBytes_moves.map _
  · exact QuickProtobuf.readBytes_moves.map _
  · exact QuickProtobuf.readBytes_moves.map _
  · exact QuickProtobuf.readString_moves.map _
  · exact QuickProtobuf.readBytes_moves.map _
  · exact (QuickProtobuf.readUnknown_moves tag).map _

theorem readField_unknown (message : IdentifyMessage) (tag : UInt32) (h : tag ∉ tags) :
    readField message tag = (readUnknown tag).map fun _ => message := by
  simp only [tags, List.mem_cons, List.not_mem_nil, or_false, not_or] at h
  simp [readField, h]

def fromReader (bytes : List UInt8) : Except PbError IdentifyMessage := readFields readField readField_moves {} bytes

def getSize (message : IdentifyMessage) : ℕ :=
  (message.protocolVersion.elim 0 fun value => 1 + sizeofLen (asBytes value).length) +
    (message.agentVersion.elim 0 fun value => 1 + sizeofLen (asBytes value).length) +
    (message.publicKey.elim 0 fun value => 1 + sizeofLen value.length) +
    (message.listenAddrs.map fun value => 1 + sizeofLen value.length).sum +
    (message.observedAddr.elim 0 fun value => 1 + sizeofLen value.length) +
    (message.protocols.map fun value => 1 + sizeofLen (asBytes value).length).sum +
    message.signedPeerRecord.elim 0 fun value => 1 + sizeofLen value.length

def writeMessage (message : IdentifyMessage) : List UInt8 :=
  (message.protocolVersion.elim [] fun value => writeWithTag 42 (writeString value)) ++
    (message.agentVersion.elim [] fun value => writeWithTag 50 (writeString value)) ++
    (message.publicKey.elim [] fun value => writeWithTag 10 (writeBytes value)) ++
    (message.listenAddrs.flatMap fun value => writeWithTag 18 (writeBytes value)) ++
    (message.observedAddr.elim [] fun value => writeWithTag 34 (writeBytes value)) ++
    (message.protocols.flatMap fun value => writeWithTag 26 (writeString value)) ++
    message.signedPeerRecord.elim [] fun value => writeWithTag 66 (writeBytes value)

/-- what is written, field by field -/
def fields (message : IdentifyMessage) : List (List UInt8) :=
  (message.protocolVersion.toList.map fun value => writeWithTag 42 (writeString value)) ++
    (message.agentVersion.toList.map fun value => writeWithTag 50 (writeString value)) ++
    (message.publicKey.toList.map fun value => writeWithTag 10 (writeBytes value)) ++
    (message.listenAddrs.map fun value => writeWithTag 18 (writeBytes value)) ++
    (message.observedAddr.toList.map fun value => writeWithTag 34 (writeBytes value)) ++
    (message.protocols.map fun value => writeWithTag 26 (writeString value)) ++
    message.signedPeerRecord.toList.map fun value => writeWithTag 66 (writeBytes value)

theorem flatten_fields (message : IdentifyMessage) : message.fields.flatten = message.writeMessage := by
  simp [fields, writeMessage, flatten_optional, List.flatMap_def]

theorem getSize_eq (message : IdentifyMessage) : message.getSize = message.writeMessage.length := by
  simp [getSize, writeMessage, writeString, length_optional, length_writeWithTag, List.length_flatMap, Nat.add_assoc]

theorem applied_fields (message : IdentifyMessage) : Applied (turn readField) message.fields fun m =>
    { protocolVersion := message.protocolVersion <|> m.protocolVersion
      agentVersion := message.agentVersion <|> m.agentVersion
      publicKey := message.publicKey <|> m.publicKey
      listenAddrs := m.listenAddrs ++ message.listenAddrs
      observedAddr := message.observedAddr <|> m.observedAddr
      protocols := m.protocols ++ message.protocols
      signedPeerRecord := message.signedPeerRecord <|> m.signedPeerRecord } := by
  have hprotocolVersion := applied_optional readField QuickProtobuf.readString_reads 42
    (fun (m : IdentifyMessage) o => { m with protocolVersion := o <|> m.protocolVersion })
    (fun _ => rfl) (fun _ => rfl) message.protocolVersion
  have hagentVersion := applied_optional readField QuickProtobuf.readString_reads 50
    (fun (m : IdentifyMessage) o => { m with agentVersion := o <|> m.agentVersion })
    (fun _ => rfl) (fun _ => rfl) message.agentVersion
  have hpublicKey := applied_optional readField QuickProtobuf.readBytes_reads 10
    (fun (m : IdentifyMessage) o => { m with publicKey := o <|> m.publicKey })
    (fun _ => rfl) (fun _ => rfl) message.publicKey
  have hlistenAddrs := applied_repeated readField QuickProtobuf.readBytes_reads 18
    (fun (m : IdentifyMessage) l => { m with listenAddrs := m.listenAddrs ++ l })
    (fun m => by simp) (fun m a l => by simp) (fun _ => rfl) message.listenAddrs
  have hobservedAddr := applied_optional readField QuickProtobuf.readBytes_reads 34
    (fun (m : IdentifyMessage) o => { m with observedAddr := o <|> m.observedAddr })
    (fun _ => rfl) (fun _ => rfl) message.observedAddr
  have hprotocols := applied_repeated readField QuickProtobuf.readString_reads 26
    (fun (m : IdentifyMessage) l => { m with protocols := m.protocols ++ l })
    (fun m => by simp) (fun m a l => by simp) (fun _ => rfl) message.protocols
  have hsignedPeerRecord := applied_optional readField QuickProtobuf.readBytes_reads 66
    (fun (m : IdentifyMessage) o => { m with signedPeerRecord := o <|> m.signedPeerRecord })
    (fun _ => rfl) (fun _ => rfl) message.signedPeerRecord
  exact (((((hprotocolVersion.append hagentVersion).append hpublicKey).append hlistenAddrs).append hobservedAddr).append
    hprotocols).append hsignedPeerRecord

/-- unknown fields do not matter -/
theorem fromReader_inserted (message : IdentifyMessage) {chunks : List (List UInt8)}
    (h : Inserted (Unknown tags) message.fields chunks) : fromReader chunks.flatten = .ok message := by
  have hread := readFields_inserted readField_moves readField_unknown message.applied_fields h {}
  simpa [fromReader] using hread

end IdentifyMessage

/-! ## The payload of the noise handshake -/

structure NoiseExtensions where
  webtransportCerthashes : List (List UInt8) := []
  streamMuxers : List String := []
deriving DecidableEq, Repr

namespace NoiseExtensions

def readField (message : NoiseExtensions) (tag : UInt32) : Reader PbError UInt8 NoiseExtensions :=
  if tag = 10 then
    readBytes.map fun value => { message with webtransportCerthashes := message.webtransportCerthashes ++ [value] }
  else if tag = 18 then readString.map fun value => { message with streamMuxers := message.streamMuxers ++ [value] }
  else (readUnknown tag).map fun _ => message

/-- the tags it knows -/
def tags : List UInt32 := [10, 18]

theorem readField_moves (message : NoiseExtensions) (tag : UInt32) : (readField message tag).Moves := by
  unfold readField
  split_ifs
  · exact QuickProtobuf.readBytes_moves.map _
  · exact QuickProtobuf.readString_moves.map _
  · exact (QuickProtobuf.readUnknown_moves tag).map _

theorem readField_unknown (message : NoiseExtensions) (tag : UInt32) (h : tag ∉ tags) :
    readField message tag = (readUnknown tag).map fun _ => message := by
  simp only [tags, List.mem_cons, List.not_mem_nil, or_false, not_or] at h
  simp [readField, h]

def fromReader (bytes : List UInt8) : Except PbError NoiseExtensions := readFields readField readField_moves {} bytes

def getSize (message : NoiseExtensions) : ℕ :=
  (message.webtransportCerthashes.map fun value => 1 + sizeofLen value.length).sum +
    (message.streamMuxers.map fun value => 1 + sizeofLen (asBytes value).length).sum

def writeMessage (message : NoiseExtensions) : List UInt8 :=
  (message.webtransportCerthashes.flatMap fun value => writeWithTag 10 (writeBytes value)) ++
    message.streamMuxers.flatMap fun value => writeWithTag 18 (writeString value)

/-- what is written, field by field -/
def fields (message : NoiseExtensions) : List (List UInt8) :=
  (message.webtransportCerthashes.map fun value => writeWithTag 10 (writeBytes value)) ++
    message.streamMuxers.map fun value => writeWithTag 18 (writeString value)

theorem flatten_fields (message : NoiseExtensions) : message.fields.flatten = message.writeMessage := by
  simp [fields, writeMessage, List.flatMap_def]

/-- the length in front of the nested message -/
theorem getSize_eq (message : NoiseExtensions) : message.getSize = message.writeMessage.length := by
  simp [getSize, writeMessage, writeString, length_writeWithTag, List.length_flatMap]

theorem applied_fields (message : NoiseExtensions) : Applied (turn readField) message.fields fun m =>
    { webtransportCerthashes := m.webtransportCerthashes ++ message.webtransportCerthashes
      streamMuxers := m.streamMuxers ++ message.streamMuxers } := by
  have hcerthashes := applied_repeated readField QuickProtobuf.readBytes_reads 10
    (fun (m : NoiseExtensions) l => { m with webtransportCerthashes := m.webtransportCerthashes ++ l })
    (fun m => by simp) (fun m a l => by simp) (fun _ => rfl) message.webtransportCerthashes
  have hmuxers := applied_repeated readField QuickProtobuf.readString_reads 18
    (fun (m : NoiseExtensions) l => { m with streamMuxers := m.streamMuxers ++ l })
    (fun m => by simp) (fun m a l => by simp) (fun _ => rfl) message.streamMuxers
  exact hcerthashes.append hmuxers

theorem fromReader_inserted (message : NoiseExtensions) {chunks : List (List UInt8)}
    (h : Inserted (Unknown tags) message.fields chunks) : fromReader chunks.flatten = .ok message := by
  have hread := readFields_inserted readField_moves readField_unknown message.applied_fields h {}
  simpa [fromReader] using hread

end NoiseExtensions

structure NoiseHandshakePayload where
  identityKey : List UInt8 := []
  identitySig : List UInt8 := []
  extensions : Option NoiseExtensions := none
deriving DecidableEq, Repr

namespace NoiseHandshakePayload

def readField (message : NoiseHandshakePayload) (tag : UInt32) : Reader PbError UInt8 NoiseHandshakePayload :=
  if tag = 10 then readBytes.map fun value => { message with identityKey := value }
  else if tag = 18 then readBytes.map fun value => { message with identitySig := value }
  else if tag = 34 then
    (readMessage NoiseExtensions.fromReader).map fun value => { message with extensions := some value }
  else (readUnknown tag).map fun _ => message

/-- the tags it knows -/
def tags : List UInt32 := [10, 18, 34]

theorem readField_moves (message : NoiseHandshakePayload) (tag : UInt32) : (readField message tag).Moves := by
  unfold readField
  split_ifs
  · exact QuickProtobuf.readBytes_moves.map _
  · exact QuickProtobuf.readBytes_moves.map _
  · exact (QuickProtobuf.readMessage_moves _).map _
  · exact (QuickProtobuf.readUnknown_moves tag).map _

theorem readField_unknown (message : NoiseHandshakePayload) (tag : UInt32) (h : tag ∉ tags) :
    readField message tag = (readUnknown tag).map fun _ => message := by
  simp only [tags, List.mem_cons, List.not_mem_nil, or_false, not_or] at h
  simp [readField, h]

def fromReader (bytes : List UInt8) : Except PbError NoiseHandshakePayload := readFields readField readField_moves {} bytes

def getSize (message : NoiseHandshakePayload) : ℕ :=
  let identityKeySize := if message.identityKey.isEmpty then 0 else 1 + sizeofLen message.identityKey.length
  let identitySigSize := if message.identitySig.isEmpty then 0 else 1 + sizeofLen message.identitySig.length
  let extensionsSize := message.extensions.elim 0 fun extensions => 1 + sizeofLen extensions.getSize
  identityKeySize + identitySigSize + extensionsSize

def writeMessage (message : NoiseHandshakePayload) : List UInt8 :=
  (if message.identityKey.isEmpty then [] else writeWithTag 10 (writeBytes message.identityKey)) ++
    (if message.identitySig.isEmpty then [] else writeWithTag 18 (writeBytes message.identitySig)) ++
    message.extensions.elim [] fun extensions =>
      writeWithTag 34 (writeNested extensions.getSize extensions.writeMessage)

/-- empty bytes are left out -/
def given (value : List UInt8) : Option (List UInt8) := if value.isEmpty then none else some value

/-- field by field, with the nested message written as `nested` says -/
def fieldsWith (nested : NoiseExtensions → List (List UInt8)) (message : NoiseHandshakePayload) : List (List UInt8) :=
  ((given message.identityKey).toList.map fun value => writeWithTag 10 (writeBytes value)) ++
    ((given message.identitySig).toList.map fun value => writeWithTag 18 (writeBytes value)) ++
    message.extensions.toList.map fun extensions =>
      writeWithTag 34 (writeNested (nested extensions).flatten.length (nested extensions).flatten)

theorem getSize_eq (message : NoiseHandshakePayload) : message.getSize = message.writeMessage.length := by
  have hnested (extensions : NoiseExtensions) :
      (writeWithTag 34 (writeNested extensions.getSize extensions.writeMessage)).length =
        1 + sizeofLen extensions.getSize := by
    rw [extensions.getSize_eq]
    exact length_writeWithTag (by decide) extensions.writeMessage
  simp only [getSize, writeMessage, List.length_append, length_optional, hnested]
  split_ifs <;> simp [length_writeWithTag]

theorem flatten_fieldsWith (message : NoiseHandshakePayload) :
    (message.fieldsWith NoiseExtensions.fields).flatten = message.writeMessage := by
  have hgiven (tag : UInt32) (value : List UInt8) :
      ((given value).elim [] fun value => writeWithTag tag (writeBytes value)) =
        if value.isEmpty then [] else writeWithTag tag (writeBytes value) := by
    unfold given
    split_ifs <;> rfl
  simp only [fieldsWith, writeMessage, List.flatten_append, flatten_optional, hgiven, NoiseExtensions.flatten_fields,
    NoiseExtensions.getSize_eq]

omit [QuickProtobuf] in
theorem given_getD (value : List UInt8) : (given value).getD [] = value := by
  unfold given
  split_ifs with h
  · exact (List.isEmpty_iff.1 h).symm
  · rfl

theorem applied_fieldsWith (message : NoiseHandshakePayload) {nested : NoiseExtensions → List (List UInt8)}
    (hnested : ∀ extensions ∈ message.extensions, NoiseExtensions.fromReader (nested extensions).flatten = .ok extensions) :
    Applied (turn readField) (message.fieldsWith nested) fun m =>
      { identityKey := (given message.identityKey).getD m.identityKey
        identitySig := (given message.identitySig).getD m.identitySig
        extensions := message.extensions <|> m.extensions } := by
  have hkey := applied_optional readField QuickProtobuf.readBytes_reads 10
    (fun (m : NoiseHandshakePayload) o => { m with identityKey := o.getD m.identityKey })
    (fun _ => rfl) (fun _ => rfl) (given message.identityKey)
  have hsig := applied_optional readField QuickProtobuf.readBytes_reads 18
    (fun (m : NoiseHandshakePayload) o => { m with identitySig := o.getD m.identitySig })
    (fun _ => rfl) (fun _ => rfl) (given message.identitySig)
  have hextensions : Applied (turn readField)
      (message.extensions.toList.map fun extensions =>
        writeWithTag 34 (writeNested (nested extensions).flatten.length (nested extensions).flatten))
      fun m => { m with extensions := message.extensions <|> m.extensions } := by
    cases hext : message.extensions with
    | none => exact .nil
    | some extensions =>
      have hread := QuickProtobuf.readMessage_reads (hnested extensions hext)
      exact .cons (applies_of_reads fun m => hread.map fun value => { m with extensions := some value }) .nil
  exact (hkey.append hsig).append hextensions

/-- unknown fields do not matter, nor what stands in the nested message as long as it reads the same -/
theorem fromReader_inserted (message : NoiseHandshakePayload) {nested : NoiseExtensions → List (List UInt8)}
    {chunks : List (List UInt8)}
    (hnested : ∀ extensions ∈ message.extensions, NoiseExtensions.fromReader (nested extensions).flatten = .ok extensions)
    (h : Inserted (Unknown tags) (message.fieldsWith nested) chunks) : fromReader chunks.flatten = .ok message := by
  have hread := readFields_inserted readField_moves readField_unknown (message.applied_fieldsWith hnested) h {}
  simpa [fromReader, given_getD] using hread

end NoiseHandshakePayload

/-- the writer fills a vector, so it does not fail -/
def encodePayload (payload : NoiseHandshakePayload) : Except RuntimeError (List UInt8) := .ok payload.writeMessage

def decodePayload (bytes : List UInt8) : Except RuntimeError NoiseHandshakePayload :=
  (NoiseHandshakePayload.fromReader bytes).mapError fun _ => .crypto "failed to decode noise handshake payload"

/-- **The protobuf messages are read back**, also with unknown fields anywhere in them, and the length in front of the
nested message is the right one. -/
theorem protobuf_messages_round_trip :
    (∀ message : IdentifyMessage, IdentifyMessage.fromReader message.writeMessage = .ok message) ∧
    (∀ payload : NoiseHandshakePayload, (encodePayload payload).bind decodePayload = .ok payload) ∧
    (∀ extensions : NoiseExtensions, extensions.getSize = extensions.writeMessage.length) ∧
    (∀ message : IdentifyMessage, message.fields.flatten = message.writeMessage ∧
      ∀ chunks, Inserted (Unknown IdentifyMessage.tags) message.fields chunks →
        IdentifyMessage.fromReader chunks.flatten = .ok message) ∧
    ∀ payload : NoiseHandshakePayload,
      (payload.fieldsWith NoiseExtensions.fields).flatten = payload.writeMessage ∧
      (∀ extensions : NoiseExtensions, extensions.fields.flatten = extensions.writeMessage) ∧
      ∀ nested, (∀ extensions ∈ payload.extensions,
          Inserted (Unknown NoiseExtensions.tags) extensions.fields (nested extensions)) →
        ∀ chunks, Inserted (Unknown NoiseHandshakePayload.tags) (payload.fieldsWith nested) chunks →
          decodePayload chunks.flatten = .ok payload := by
  have hidentify (message : IdentifyMessage) (chunks : List (List UInt8))
      (h : Inserted (Unknown IdentifyMessage.tags) message.fields chunks) :
      IdentifyMessage.fromReader chunks.flatten = .ok message := message.fromReader_inserted h
  have hpayload (payload : NoiseHandshakePayload) (nested : NoiseExtensions → List (List UInt8))
      (hnested : ∀ extensions ∈ payload.extensions,
        Inserted (Unknown NoiseExtensions.tags) extensions.fields (nested extensions))
      (chunks : List (List UInt8))
      (h : Inserted (Unknown NoiseHandshakePayload.tags) (payload.fieldsWith nested) chunks) :
      decodePayload chunks.flatten = .ok payload := by
    have hread := payload.fromReader_inserted (fun e he => e.fromReader_inserted (hnested e he)) h
    rw [decodePayload, hread]
    rfl
  refine ⟨?_, ?_, NoiseExtensions.getSize_eq, ?_, ?_⟩
  · intro message
    rw [← message.flatten_fields]
    exact hidentify message _ (Inserted.refl _ _)
  · intro payload
    have hread := hpayload payload NoiseExtensions.fields (fun e _ => Inserted.refl _ _) _ (Inserted.refl _ _)
    rwa [payload.flatten_fieldsWith] at hread
  · intro message
    exact ⟨message.flatten_fields, hidentify message⟩
  · intro payload
    exact ⟨payload.flatten_fieldsWith, NoiseExtensions.flatten_fields, hpayload payload⟩

end Messages

section Witness

/-! ### LEB128 without a bound -/

def leb (n : ℕ) : List UInt8 := if n < 128 then [UInt8.ofNat n] else UInt8.ofNat (n % 128 + 128) :: leb (n / 128)

def takeLeb : List UInt8 → Except String (ℕ × List UInt8)
  | [] => .error "unexpected end of buffer"
  | b :: bytes =>
    if b.toNat < 128 then .ok (b.toNat, bytes)
    else (takeLeb bytes).map fun r => (b.toNat - 128 + 128 * r.1, r.2)

def readLeb : Reader String UInt8 ℕ := takeLeb

def takeBytes (n : ℕ) : Reader String UInt8 (List UInt8) := fun bytes =>
  if n ≤ bytes.length then .ok (bytes.take n, bytes.drop n) else .error "unexpected end of buffer"

/-- a result that is known without reading further -/
def decided {α : Type} (result : Except String α) : Reader String UInt8 α := fun rest => result.map fun a => (a, rest)

def readLengthDelimited : Reader String UInt8 (List UInt8) := readLeb.andThen takeBytes

/-- `str::from_utf8` -/
def fromUtf8 (value : List UInt8) : Except String String :=
  match String.fromUTF8? ⟨value.toArray⟩ with
  | some text => .ok text
  | none => .error "invalid utf-8"

def skipField (tag : UInt32) : Reader String UInt8 Unit :=
  if tag &&& 7 = 0 then readLeb.map fun _ => ()
  else if tag &&& 7 = 1 then (takeBytes 8).map fun _ => ()
  else if tag &&& 7 = 2 then readLengthDelimited.map fun _ => ()
  else if tag &&& 7 = 5 then (takeBytes 4).map fun _ => ()
  else decided (.error "unknown wire type")

theorem leb_small {n : ℕ} (h : n < 128) : leb n = [UInt8.ofNat n] := by
  rw [leb, if_pos h]

theorem readLeb_consumes : readLeb.Consumes := by
  intro bytes
  induction bytes with
  | nil => exact nofun
  | cons b bytes ih =>
    intro n rest h
    unfold readLeb takeLeb at h
    split_ifs at h
    · cases h
      exact Nat.lt_succ_self _
    · have hmap : readLeb.map (fun m => b.toNat - 128 + 128 * m) bytes = .ok (n, rest) := h
      obtain ⟨m, hread, -⟩ := Reader.map_eq_ok.1 hmap
      exact (ih hread).trans (Nat.lt_succ_self _)

theorem readLeb_reads (n : ℕ) : readLeb.Reads (leb n) n := by
  induction n using Nat.strongRecOn with
  | ind n ih =>
    intro rest
    rw [leb]
    split_ifs with hn
    · have hb : (UInt8.ofNat n).toNat = n := by simp; omega
      simp [readLeb, takeLeb, hb, hn]
    · have hb : (UInt8.ofNat (n % 128 + 128)).toNat = n % 128 + 128 := by simp; omega
      have hrest := ih (n / 128) (by omega) rest
      simp only [readLeb] at hrest
      have hhigh : ¬ n % 128 + 128 < 128 := by omega
      have hvalue : n % 128 + 128 - 128 + 128 * (n / 128) = n := by omega
      simp only [readLeb, List.cons_append, takeLeb, hb, hhigh, if_false, hrest, Except.map, hvalue]

/-- any varint is skipped as a whole -/
theorem readLeb_skips {init : List UInt8} {last : UInt8} (hinit : ∀ b ∈ init, b &&& 0x80 ≠ 0) (hlast : last &&& 0x80 = 0) :
    ∃ n, readLeb.Reads (init ++ [last]) n := by
  induction init with
  | nil => exact ⟨last.toNat, fun rest => if_pos ((continuation_iff last).1 hlast)⟩
  | cons b init ih =>
    obtain ⟨n, hn⟩ := ih fun b' hb' => hinit b' (List.mem_cons_of_mem _ hb')
    have hb : ¬ b.toNat < 128 := fun h => hinit b List.mem_cons_self ((continuation_iff b).2 h)
    refine ⟨b.toNat - 128 + 128 * n, ?_⟩
    intro rest
    have hrest := hn rest
    simp only [readLeb] at hrest
    simp only [readLeb, List.cons_append, takeLeb, hb, if_false, hrest, Except.map]

theorem takeBytes_moves (n : ℕ) : (takeBytes n).Moves := by
  intro bytes a rest h
  unfold takeBytes at h
  split_ifs at h
  cases h
  simp

theorem takeBytes_reads (value : List UInt8) : (takeBytes value.length).Reads value value := by
  intro rest
  simp [takeBytes]

theorem decided_moves {α : Type} (result : Except String α) : (decided result).Moves := by
  intro bytes a rest h
  cases result with
  | error e => cases h
  | ok a =>
    cases h
    exact Nat.le_refl _

theorem readLengthDelimited_consumes : readLengthDelimited.Consumes := readLeb_consumes.andThen takeBytes_moves

theorem readLengthDelimited_reads (value : List UInt8) : readLengthDelimited.Reads (leb value.length ++ value) value :=
  (readLeb_reads value.length).andThen (takeBytes_reads value)

theorem skipField_moves (tag : UInt32) : (skipField tag).Moves := by
  unfold skipField
  split_ifs
  · exact readLeb_consumes.moves.map _
  · exact (takeBytes_moves 8).map _
  · exact readLengthDelimited_consumes.moves.map _
  · exact (takeBytes_moves 4).map _
  · exact decided_moves _

theorem skipField_reads {tag : UInt32} {body : List UInt8} (h : Skippable leb tag body) : (skipField tag).Reads body () := by
  cases h with
  | varint htag hinit hlast _ =>
    obtain ⟨n, hn⟩ := readLeb_skips hinit hlast
    simp only [skipField, htag, if_true]
    exact hn.map _
  | fixed64 htag hlen =>
    have hread := takeBytes_reads body
    rw [hlen] at hread
    simpa [skipField, htag] using hread.map fun _ => ()
  | lengthDelimited body htag => simpa [skipField, htag] using (readLengthDelimited_reads body).map fun _ => ()
  | fixed32 htag hlen =>
    have hread := takeBytes_reads body
    rw [hlen] at hread
    simpa [skipField, htag] using hread.map fun _ => ()

/-- the primitives over it -/
@[reducible] def lebProtobuf : QuickProtobuf where
  PbError := String
  writeVarint := leb
  sizeofLen n := (leb n).length + n
  nextTag := readLeb.map UInt32.ofNat
  readBytes := readLengthDelimited
  readString := readLengthDelimited.andThen fun value => decided (fromUtf8 value)
  readMessage fromReader := readLengthDelimited.andThen fun value => decided (fromReader value)
  readUnknown := skipField
  sizeofLen_eq _ := rfl
  length_writeVarint n hn := congrArg List.length (leb_small hn)
  nextTag_consumes := readLeb_consumes.map _
  readBytes_moves := readLengthDelimited_consumes.moves
  readString_moves := (readLengthDelimited_consumes.andThen fun _ => decided_moves _).moves
  readMessage_moves _ := (readLengthDelimited_consumes.andThen fun _ => decided_moves _).moves
  readUnknown_moves := skipField_moves
  nextTag_reads tag := by
    have hread := (readLeb_reads tag.toNat).map UInt32.ofNat
    rwa [UInt32.ofNat_toNat] at hread
  readBytes_reads := readLengthDelimited_reads
  readString_reads value := by
    intro rest
    refine Reader.andThen_eq_ok.2 ⟨_, rest, readLengthDelimited_reads (asBytes value) rest, ?_⟩
    simp [decided, fromUtf8, fromUTF8?_asBytes, Except.map]
  readMessage_reads h := by
    intro rest
    refine Reader.andThen_eq_ok.2 ⟨_, rest, readLengthDelimited_reads _ rest, ?_⟩
    rw [h]
    rfl
  readUnknown_reads := skipField_reads

/-- a varint behind the key, and another one in front of the entry of the nested message -/
theorem protobuf_messages_round_trip_of_extended :
    letI := lebProtobuf
    decodePayload [10, 2, 1, 2, 8, 150, 1, 18, 1, 3, 34, 6, 8, 1, 18, 2, 104, 50] =
      .ok ⟨[1, 2], [3], some ⟨[], ["h2"]⟩⟩ := by
  let _ := lebProtobuf
  have hvarint (known : List UInt32) (init : List UInt8) (hknown : 8 ∉ known) (hlen : init.length < 10)
      (hinit : ∀ b ∈ init, b &&& 0x80 ≠ 0) : Unknown known (writeWithTag 8 (init ++ [1])) :=
    ⟨8, _, hknown, .varint (by decide) hinit (by decide) hlen, rfl⟩
  obtain ⟨-, -, -, -, hpayload⟩ := protobuf_messages_round_trip
  obtain ⟨-, -, hread⟩ := hpayload ⟨[1, 2], [3], some ⟨[], ["h2"]⟩⟩
  have hnested := hread (fun extensions => writeWithTag 8 ([] ++ [1]) :: extensions.fields)
    (fun extensions _ => .insert (hvarint _ [] (by decide) (by decide) nofun) (.refl _ _))
  have hhigh : ∀ b ∈ [(150 : UInt8)], b &&& 0x80 ≠ 0 := by
    intro b hb
    rw [List.mem_singleton.1 hb]
    decide
  have hchunks := hnested _
    (.keep (writeWithTag 10 (writeBytes [1, 2])) (.insert (hvarint _ [150] (by decide) (by decide) hhigh) (.refl _ _)))
  have hh2 : asBytes "h2" = [104, 50] := by decide
  have hleb {n : ℕ} (hn : n < 128) : writeVarint n = [UInt8.ofNat n] := leb_small hn
  simpa [writeWithTag, writeBytes, writeString, writeNested, NoiseExtensions.fields, NoiseHandshakePayload.given,
    hleb, hh2] using hchunks

end Witness

end Erp

end RustProof
