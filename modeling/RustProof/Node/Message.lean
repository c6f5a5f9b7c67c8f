/-
The messages of the node protocol (`rp-node/src/network/message.rs`) and their bytes: the postcard encoding that serde
derives from the types, field by field in declaration order, a verifying key as a byte string, a signature as 64 raw bytes.

The decoder recurses through slash proofs into blocks. Its fuel is the number of bytes at hand: every level of nesting
takes bytes of its own, so the input runs out before the fuel does.

Results:
- `decodes_block`, `fromBytes_toBytes_message`: what was encoded is decoded, whatever follows it;
- `network_messages_round_trip`: so no two messages begin one buffer;
- `fromBytes_sized`: the blocks of a decoded message are `Sized`;
- `fromBytes_tag`: whatever the bytes of a message decode to is of its kind.
-/
import RustProof.Lib.Postcard
import RustProof.Core.Sample

namespace RustProof

section Codec

variable [Crypto]

/-! ## Messages -/

structure SyncRequest where
  fromHeight : UInt64
  toHeight : UInt64
deriving DecidableEq

/-- `clamp_sync_request` of the network managers, for a peer that sends at most this many blocks at a time -/
def SyncRequest.clamp (maxBlocksPerChunk : Option UInt16) (request : SyncRequest) : SyncRequest :=
  match maxBlocksPerChunk with
  | none => request
  | some limit =>
    if limit = 0 ∨ request.fromHeight > request.toHeight then request
    else
      let maxToHeight := saturatingAdd request.fromHeight (saturatingSub limit.toUInt64 1)
      ⟨request.fromHeight, min request.toHeight maxToHeight⟩

structure SyncResponse where
  blocks : List Block
  hasMore : Bool
  nextHeight : Option UInt64

inductive AnnounceKind where
  | newTransaction (tx : Transaction)
  | newBlock (block : Block)

structure AnnounceRequest where
  kind : AnnounceKind

structure AnnounceResponse where
  accepted : Bool
deriving DecidableEq

inductive NetworkMessage where
  | announceRequest (request : AnnounceRequest)
  | syncRequest (request : SyncRequest)
  | syncResponse (response : SyncResponse)
  | announceResponse (response : AnnounceResponse)

/-- `AnnounceRequest::transaction` -/
def AnnounceRequest.transaction (tx : Transaction) : AnnounceRequest := ⟨.newTransaction tx⟩

/-- `AnnounceRequest::block` -/
def AnnounceRequest.block (block : Block) : AnnounceRequest := ⟨.newBlock block⟩

/-! ## Encoding -/

/-- `serde_verifying_key::serialize` -/
def putKey (k : VerifyingKey) : List UInt8 := putVec (fun b => [b]) (keyBytes k)

def putSignature (s : Signature) : List UInt8 := (signatureToBytes s).bytes

mutual

def Block.toPostcard : Block → List UInt8
  | ⟨height, slot, previousHash, validator, transactions, signature, slashProofs, stateRoot⟩ =>
    putU64 height ++ (putU64 slot ++ (previousHash.bytes ++ (putKey validator ++
      ((putLen transactions.length ++ Transaction.concatPostcard transactions) ++ (putOption putSignature signature ++
      ((putLen slashProofs.length ++ SlashProof.concatPostcard slashProofs) ++ stateRoot.bytes))))))

def Transaction.toPostcard : Transaction → List UInt8
  | ⟨sender, data, sequence, fee, signature⟩ =>
    putKey sender ++ (data.toPostcard ++ (putU64 sequence ++ (putU64 fee ++ putOption putSignature signature)))

def TransactionData.toPostcard : TransactionData → List UInt8
  | .transfer receiver amount => putTag 0 ++ (putKey receiver ++ putU64 amount)
  | .stake amount => putTag 1 ++ putU64 amount
  | .unstake amount => putTag 2 ++ putU64 amount
  | .slash proof => putTag 3 ++ proof.toPostcard

def SlashProof.toPostcard : SlashProof → List UInt8
  | ⟨validator, blockA, blockB⟩ => putKey validator ++ (blockA.toPostcard ++ blockB.toPostcard)

def Transaction.concatPostcard : List Transaction → List UInt8
  | [] => []
  | tx :: txs => tx.toPostcard ++ Transaction.concatPostcard txs

def SlashProof.concatPostcard : List SlashProof → List UInt8
  | [] => []
  | p :: ps => p.toPostcard ++ SlashProof.concatPostcard ps

end

def AnnounceKind.toPostcard : AnnounceKind → List UInt8
  | .newTransaction tx => putTag 0 ++ tx.toPostcard
  | .newBlock block => putTag 1 ++ block.toPostcard

def SyncResponse.toPostcard (r : SyncResponse) : List UInt8 :=
  putVec Block.toPostcard r.blocks ++ (putBool r.hasMore ++ putOption putU64 r.nextHeight)

/-- `NetworkMessage::to_bytes` -/
def NetworkMessage.toBytes : NetworkMessage → List UInt8
  | .announceRequest request => putTag 0 ++ request.kind.toPostcard
  | .syncRequest request => putTag 1 ++ (putU64 request.fromHeight ++ putU64 request.toHeight)
  | .syncResponse response => putTag 2 ++ response.toPostcard
  | .announceResponse response => putTag 3 ++ putBool response.accepted

/-! ## Decoding -/

/-- `serde_verifying_key::deserialize` -/
def takeKey : Decoder VerifyingKey := do
  let bytes ← takeVec takeByte
  let keyBytes ← accept (U8Array.ofList? publicKeySize bytes)
  accept (verifyingKeyFromBytes keyBytes)

def takeSignature : Decoder Signature := do
  let bytes ← takeArray 64
  accept (signatureFromBytes bytes)

section Nested

variable (block : Decoder Block)

def takeSlashProof : Decoder SlashProof := do
  let validator ← takeKey
  let blockA ← block
  let blockB ← block
  pure ⟨validator, blockA, blockB⟩

def takeTransactionData : Decoder TransactionData := do
  match ← takeTag with
  | 0 => do
    let receiver ← takeKey
    let amount ← takeU64
    pure (.transfer receiver amount)
  | 1 => do
    let amount ← takeU64
    pure (.stake amount)
  | 2 => do
    let amount ← takeU64
    pure (.unstake amount)
  | 3 => do
    let proof ← takeSlashProof block
    pure (.slash proof)
  | _ => fun _ => none

def takeTransaction : Decoder Transaction := do
  let sender ← takeKey
  let data ← takeTransactionData block
  let sequence ← takeU64
  let fee ← takeU64
  let signature ← takeOption takeSignature
  pure ⟨sender, data, sequence, fee, signature⟩

end Nested

def takeBlock : (fuel : ℕ) → Decoder Block
  | 0 => fun _ => none
  | fuel + 1 => do
    let height ← takeU64
    let slot ← takeU64
    let previousHash ← takeArray 32
    let validator ← takeKey
    let transactions ← takeVec (takeTransaction (takeBlock fuel))
    let signature ← takeOption takeSignature
    let slashProofs ← takeVec (takeSlashProof (takeBlock fuel))
    let stateRoot ← takeArray 32
    pure ⟨height, slot, previousHash, validator, transactions, signature, slashProofs, stateRoot⟩

def takeAnnounceKind (fuel : ℕ) : Decoder AnnounceKind := do
  match ← takeTag with
  | 0 => do
    let tx ← takeTransaction (takeBlock fuel)
    pure (.newTransaction tx)
  | 1 => do
    let block ← takeBlock fuel
    pure (.newBlock block)
  | _ => fun _ => none

def takeMessage (fuel : ℕ) : Decoder NetworkMessage := do
  match ← takeTag with
  | 0 => do
    let kind ← takeAnnounceKind fuel
    pure (.announceRequest ⟨kind⟩)
  | 1 => do
    let fromHeight ← takeU64
    let toHeight ← takeU64
    pure (.syncRequest ⟨fromHeight, toHeight⟩)
  | 2 => do
    let blocks ← takeVec (takeBlock fuel)
    let hasMore ← takeBool
    let nextHeight ← takeOption takeU64
    pure (.syncResponse ⟨blocks, hasMore, nextHeight⟩)
  | 3 => do
    let accepted ← takeBool
    pure (.announceResponse ⟨accepted⟩)
  | _ => fun _ => none

/-- `postcard::from_bytes::<Block>` -/
def Block.fromPostcard (bytes : List UInt8) : Option Block := (takeBlock bytes.length bytes).map Prod.fst

/-- `NetworkMessage::from_bytes` -/
def NetworkMessage.fromBytes (bytes : List UInt8) : Except String NetworkMessage :=
  match takeMessage bytes.length bytes with
  | some (message, _) => .ok message
  | none => .error "invalid network message"

/-! ## What was encoded is decoded -/

theorem decodes_key (k : VerifyingKey) : Decodes takeKey (putKey k) k := by
  have hlen : (keyBytes k).length < 2 ^ 64 := by
    rw [keyBytes, U8Array.size_eq]
    norm_num [publicKeySize]
  have hbytes := decodes_vec hlen fun b _ => decodes_byte b
  have hkey : U8Array.ofList? publicKeySize (keyBytes k) = some (verifyingKeyToBytes k) := U8Array.ofList?_bytes _
  have h : Decodes takeKey (putKey k ++ ([] ++ [])) k :=
    hbytes.bind ((decodes_accept hkey).bind (decodes_accept (Crypto.key_round_trip k)))
  rwa [List.append_nil, List.append_nil] at h

theorem decodes_signature (s : Signature) : Decodes takeSignature (putSignature s) s := by
  have h : Decodes takeSignature (putSignature s ++ []) s :=
    (decodes_array (signatureToBytes s)).bind (decodes_accept (Crypto.signature_round_trip s))
  rwa [List.append_nil] at h

theorem Transaction.concatPostcard_eq (l : List Transaction) :
    Transaction.concatPostcard l = l.flatMap Transaction.toPostcard := by
  induction l with
  | nil => rfl
  | cons a l ih => rw [Transaction.concatPostcard, ih]; rfl

theorem SlashProof.concatPostcard_eq (l : List SlashProof) :
    SlashProof.concatPostcard l = l.flatMap SlashProof.toPostcard := by
  induction l with
  | nil => rfl
  | cons a l ih => rw [SlashProof.concatPostcard, ih]; rfl

mutual

/-- fuel for as many bytes as the block has is enough: what is nested in it is shorter -/
theorem decodes_block : ∀ (b : Block) (fuel : ℕ), b.Sized → b.toPostcard.length ≤ fuel →
    Decodes (takeBlock fuel) b.toPostcard b
  | ⟨height, slot, previousHash, validator, txs, signature, proofs, stateRoot⟩, fuel, hs, hf => by
    obtain ⟨⟨htlen, htx⟩, hplen, hp⟩ := hs
    have hpos := length_putU64_pos height
    simp only [Block.toPostcard, List.length_append] at hf ⊢
    obtain ⟨fuel, rfl⟩ : ∃ m, fuel = m + 1 := ⟨fuel - 1, by omega⟩
    have h1 := decodes_transactions txs fuel htx (by omega)
    have h2 := decodes_slashProofs proofs fuel hp (by omega)
    have hvec1 : Decodes _ _ txs := decodes_vec htlen h1
    have hvec2 : Decodes _ _ proofs := decodes_vec hplen h2
    rw [putVec, ← Transaction.concatPostcard_eq] at hvec1
    rw [putVec, ← SlashProof.concatPostcard_eq] at hvec2
    exact (decodes_u64 height).bind ((decodes_u64 slot).bind ((decodes_array previousHash).bind
      ((decodes_key validator).bind (hvec1.bind ((decodes_option decodes_signature signature).bind
      (hvec2.bind (decodes_array stateRoot).map))))))

theorem decodes_transaction : ∀ (tx : Transaction) (fuel : ℕ), tx.Sized → tx.toPostcard.length ≤ fuel →
    Decodes (takeTransaction (takeBlock fuel)) tx.toPostcard tx
  | ⟨sender, data, sequence, fee, signature⟩, fuel, hs, hf => by
    simp only [Transaction.toPostcard, List.length_append] at hf ⊢
    have hdata := decodes_transactionData data fuel hs (by omega)
    exact (decodes_key sender).bind (hdata.bind ((decodes_u64 sequence).bind ((decodes_u64 fee).bind
      (decodes_option decodes_signature signature).map)))

theorem decodes_transactionData : ∀ (data : TransactionData) (fuel : ℕ), data.Sized → data.toPostcard.length ≤ fuel →
    Decodes (takeTransactionData (takeBlock fuel)) data.toPostcard data
  | .transfer receiver amount, _, _, _ =>
    (decodes_tag (n := 0) (by norm_num)).bind ((decodes_key receiver).bind (decodes_u64 amount).map)
  | .stake amount, _, _, _ => (decodes_tag (n := 1) (by norm_num)).bind (decodes_u64 amount).map
  | .unstake amount, _, _, _ => (decodes_tag (n := 2) (by norm_num)).bind (decodes_u64 amount).map
  | .slash proof, fuel, hs, hf => by
    simp only [TransactionData.toPostcard, List.length_append] at hf ⊢
    have hproof := decodes_slashProof proof fuel hs (by omega)
    exact (decodes_tag (n := 3) (by norm_num)).bind hproof.map

theorem decodes_slashProof : ∀ (p : SlashProof) (fuel : ℕ), p.Sized → p.toPostcard.length ≤ fuel →
    Decodes (takeSlashProof (takeBlock fuel)) p.toPostcard p
  | ⟨validator, blockA, blockB⟩, fuel, hs, hf => by
    simp only [SlashProof.toPostcard, List.length_append] at hf ⊢
    have hA := decodes_block blockA fuel hs.1 (by omega)
    have hB := decodes_block blockB fuel hs.2 (by omega)
    exact (decodes_key validator).bind (hA.bind hB.map)

theorem decodes_transactions : ∀ (l : List Transaction) (fuel : ℕ), Transaction.SizedAll l →
    (Transaction.concatPostcard l).length ≤ fuel →
    ∀ tx ∈ l, Decodes (takeTransaction (takeBlock fuel)) tx.toPostcard tx
  | [], _, _, _ => by simp
  | tx :: txs, fuel, hs, hf => by
    simp only [Transaction.concatPostcard, List.length_append] at hf
    have hhead := decodes_transaction tx fuel hs.1 (by omega)
    have htail := decodes_transactions txs fuel hs.2 (by omega)
    intro u hu
    rcases List.mem_cons.1 hu with rfl | hu
    · exact hhead
    · exact htail u hu

theorem decodes_slashProofs : ∀ (l : List SlashProof) (fuel : ℕ), SlashProof.SizedAll l →
    (SlashProof.concatPostcard l).length ≤ fuel →
    ∀ p ∈ l, Decodes (takeSlashProof (takeBlock fuel)) p.toPostcard p
  | [], _, _, _ => by simp
  | p :: ps, fuel, hs, hf => by
    simp only [SlashProof.concatPostcard, List.length_append] at hf
    have hhead := decodes_slashProof p fuel hs.1 (by omega)
    have htail := decodes_slashProofs ps fuel hs.2 (by omega)
    intro q hq
    rcases List.mem_cons.1 hq with rfl | hq
    · exact hhead
    · exact htail q hq

end

theorem Block.fromPostcard_toPostcard {b : Block} (hs : b.Sized) : Block.fromPostcard b.toPostcard = some b := by
  have h := decodes_block b b.toPostcard.length hs le_rfl []
  rw [List.append_nil] at h
  rw [Block.fromPostcard, h]
  rfl

/-- the `Vec`s of a message are shorter than 2^64 -/
def NetworkMessage.Sized : NetworkMessage → Prop
  | .announceRequest ⟨.newTransaction tx⟩ => tx.Sized
  | .announceRequest ⟨.newBlock block⟩ => block.Sized
  | .syncResponse response => response.blocks.length < 2 ^ 64 ∧ ∀ b ∈ response.blocks, b.Sized
  | .syncRequest _ | .announceResponse _ => True

theorem decodes_message {m : NetworkMessage} (fuel : ℕ) (hs : m.Sized) (hf : m.toBytes.length ≤ fuel) :
    Decodes (takeMessage fuel) m.toBytes m := by
  cases m with
  | announceRequest request =>
    obtain ⟨kind⟩ := request
    simp only [NetworkMessage.toBytes, List.length_append] at hf ⊢
    have hkind : Decodes (takeAnnounceKind fuel) kind.toPostcard kind := by
      cases kind with
      | newTransaction tx =>
        simp only [AnnounceKind.toPostcard, List.length_append] at hf ⊢
        exact (decodes_tag (n := 0) (by norm_num)).bind (decodes_transaction tx fuel hs (by omega)).map
      | newBlock b =>
        simp only [AnnounceKind.toPostcard, List.length_append] at hf ⊢
        exact (decodes_tag (n := 1) (by norm_num)).bind (decodes_block b fuel hs (by omega)).map
    exact (decodes_tag (n := 0) (by norm_num)).bind hkind.map
  | syncRequest request =>
    exact (decodes_tag (n := 1) (by norm_num)).bind ((decodes_u64 _).bind (decodes_u64 _).map)
  | syncResponse response =>
    simp only [NetworkMessage.toBytes, SyncResponse.toPostcard, putVec, List.length_append] at hf
    have hblocks : Decodes (takeVec (takeBlock fuel)) (putVec Block.toPostcard response.blocks) response.blocks :=
      decodes_vec hs.1 fun b hb =>
      decodes_block b fuel (hs.2 b hb) (by have := length_le_flatMap (f := Block.toPostcard) hb; omega)
    exact (decodes_tag (n := 2) (by norm_num)).bind (hblocks.bind ((decodes_bool _).bind
      (decodes_option decodes_u64 _).map))
  | announceResponse response => exact (decodes_tag (n := 3) (by norm_num)).bind (decodes_bool _).map

/-- a message is decoded from its own bytes, whatever follows them -/
theorem fromBytes_toBytes_message {m : NetworkMessage} (hs : m.Sized) (t : List UInt8) :
    NetworkMessage.fromBytes (m.toBytes ++ t) = .ok m := by
  have h := decodes_message (m.toBytes ++ t).length hs (by simp) t
  rw [NetworkMessage.fromBytes, h]

/-- **Network messages round-trip.** Every message, with blocks and slash proofs nested to any depth, is decoded from its
bytes whatever follows them; so a buffer begins with the bytes of at most one message. -/
theorem network_messages_round_trip {m : NetworkMessage} (hs : m.Sized) (t : List UInt8) :
    NetworkMessage.fromBytes (m.toBytes ++ t) = .ok m ∧
      ∀ (m' : NetworkMessage) (t' : List UInt8), m'.Sized → m.toBytes ++ t = m'.toBytes ++ t' → m = m' ∧ t = t' := by
  refine ⟨fromBytes_toBytes_message hs t, fun m' t' hs' heq => ?_⟩
  have hm : m = m' := by
    have h := fromBytes_toBytes_message hs t
    rw [heq, fromBytes_toBytes_message hs' t'] at h
    exact (Except.ok.inj h).symm
  subst hm
  exact ⟨rfl, List.append_cancel_left heq⟩

/-! ## What is decoded is sized -/

theorem Transaction.sizedAll_iff {l : List Transaction} : Transaction.SizedAll l ↔ ∀ tx ∈ l, tx.Sized := by
  induction l with
  | nil => simp [Transaction.SizedAll]
  | cons a l ih => simp [Transaction.SizedAll, ih]

theorem SlashProof.sizedAll_iff {l : List SlashProof} : SlashProof.SizedAll l ↔ ∀ p ∈ l, p.Sized := by
  induction l with
  | nil => simp [SlashProof.SizedAll]
  | cons a l ih => simp [SlashProof.SizedAll, ih]

section Nested

variable {block : Decoder Block} (hb : Ensures block Block.Sized)
include hb

theorem ensures_slashProof : Ensures (takeSlashProof block) SlashProof.Sized :=
  (Ensures.true takeKey).bind fun _ _ => hb.bind fun _ hA => hb.bind fun _ hB => Ensures.pure ⟨hA, hB⟩

theorem ensures_transactionData : Ensures (takeTransactionData block) TransactionData.Sized := by
  refine (Ensures.true takeTag).bind fun tag _ => ?_
  split
  · exact (Ensures.true takeKey).bind fun _ _ => (Ensures.true takeU64).bind fun _ _ => Ensures.pure trivial
  · exact (Ensures.true takeU64).bind fun _ _ => Ensures.pure trivial
  · exact (Ensures.true takeU64).bind fun _ _ => Ensures.pure trivial
  · exact (ensures_slashProof hb).bind fun _ hp => Ensures.pure hp
  · exact Ensures.fail

theorem ensures_transaction : Ensures (takeTransaction block) Transaction.Sized :=
  (Ensures.true takeKey).bind fun _ _ => (ensures_transactionData hb).bind fun _ hd =>
    (Ensures.true takeU64).bind fun _ _ => (Ensures.true takeU64).bind fun _ _ =>
    (Ensures.true (takeOption takeSignature)).bind fun _ _ => Ensures.pure hd

end Nested

theorem ensures_block (fuel : ℕ) : Ensures (takeBlock fuel) Block.Sized := by
  induction fuel with
  | zero => exact Ensures.fail
  | succ fuel ih =>
    refine (Ensures.true takeU64).bind fun _ _ => (Ensures.true takeU64).bind fun _ _ =>
      (Ensures.true (takeArray 32)).bind fun _ _ => (Ensures.true takeKey).bind fun _ _ =>
      (ensures_vec (ensures_transaction ih)).bind fun txs htx =>
      (Ensures.true (takeOption takeSignature)).bind fun _ _ =>
      (ensures_vec (ensures_slashProof ih)).bind fun proofs hp =>
      (Ensures.true (takeArray 32)).bind fun _ _ => Ensures.pure ?_
    exact ⟨⟨htx.1, Transaction.sizedAll_iff.2 htx.2⟩, hp.1, SlashProof.sizedAll_iff.2 hp.2⟩

theorem ensures_message (fuel : ℕ) : Ensures (takeMessage fuel) NetworkMessage.Sized := by
  refine (Ensures.true takeTag).bind fun tag _ => ?_
  split
  · refine Ensures.bind (P := fun kind => (NetworkMessage.announceRequest ⟨kind⟩).Sized) ?_ fun _ hk => Ensures.pure hk
    refine (Ensures.true takeTag).bind fun tag _ => ?_
    split
    · exact (ensures_transaction (ensures_block fuel)).bind fun _ h => Ensures.pure h
    · exact (ensures_block fuel).bind fun _ h => Ensures.pure h
    · exact Ensures.fail
  · exact (Ensures.true takeU64).bind fun _ _ => (Ensures.true takeU64).bind fun _ _ => Ensures.pure trivial
  · exact (ensures_vec (ensures_block fuel)).bind fun _ h => (Ensures.true takeBool).bind fun _ _ =>
      (Ensures.true (takeOption takeU64)).bind fun _ _ => Ensures.pure h
  · exact (Ensures.true takeBool).bind fun _ _ => Ensures.pure trivial
  · exact Ensures.fail

theorem fromBytes_sized {bytes : List UInt8} {m : NetworkMessage} (h : NetworkMessage.fromBytes bytes = .ok m) :
    m.Sized := by
  unfold NetworkMessage.fromBytes at h
  split at h
  · rename_i message rest hm
    cases h
    exact ensures_message _ _ _ _ hm
  · cases h

/-! ## The kind of a message survives, whatever its size -/

/-- the index of the variant -/
def NetworkMessage.tag : NetworkMessage → ℕ
  | .announceRequest _ => 0
  | .syncRequest _ => 1
  | .syncResponse _ => 2
  | .announceResponse _ => 3

/-- what `takeMessage` does behind the tag -/
theorem takeMessage_putTag {fuel n : ℕ} {bytes : List UInt8} {m : NetworkMessage} {t : List UInt8} (hn : n < 2 ^ 32)
    (h : takeMessage fuel (putTag n ++ bytes) = some (m, t)) : m.tag = n := by
  change (takeTag (putTag n ++ bytes)).bind _ = _ at h
  rw [decodes_tag hn bytes, Option.bind_some] at h
  refine (?_ : Ensures _ fun m' => m'.tag = n) _ _ _ h
  split
  · exact (Ensures.true (takeAnnounceKind fuel)).bind fun _ _ => Ensures.pure rfl
  · exact (Ensures.true takeU64).bind fun _ _ => (Ensures.true takeU64).bind fun _ _ => Ensures.pure rfl
  · exact (Ensures.true (takeVec (takeBlock fuel))).bind fun _ _ => (Ensures.true takeBool).bind fun _ _ =>
      (Ensures.true (takeOption takeU64)).bind fun _ _ => Ensures.pure rfl
  · exact (Ensures.true takeBool).bind fun _ _ => Ensures.pure rfl
  · exact Ensures.fail

theorem fromBytes_tag {m m' : NetworkMessage} (h : NetworkMessage.fromBytes m.toBytes = .ok m') : m'.tag = m.tag := by
  unfold NetworkMessage.fromBytes at h
  split at h
  · rename_i message rest hm
    cases h
    have hsmall : m.tag < 2 ^ 32 := by cases m <;> simp [NetworkMessage.tag]
    cases m with
    | announceRequest request => exact takeMessage_putTag hsmall hm
    | syncRequest request => exact takeMessage_putTag hsmall hm
    | syncResponse response => exact takeMessage_putTag hsmall hm
    | announceResponse response => exact takeMessage_putTag hsmall hm
  · cases h

end Codec

section Witness

open Sample

theorem block₁_sized : block₁.Sized := by
  have hproof : proof.Sized := ⟨⟨⟨by decide, trivial⟩, by decide, trivial⟩, ⟨by decide, trivial⟩, by decide, trivial⟩
  exact ⟨⟨by decide, trivial, trivial, hproof, trivial, trivial⟩, by decide, hproof, trivial⟩

/-- a block that carries a slash proof twice, once inside a transaction -/
theorem network_messages_round_trip_block₁ :
    (NetworkMessage.announceRequest (.block block₁)).Sized ∧
      NetworkMessage.fromBytes ((NetworkMessage.announceRequest (.block block₁)).toBytes ++ [1, 2]) =
        .ok (.announceRequest (.block block₁)) :=
  ⟨block₁_sized, (network_messages_round_trip (m := .announceRequest (.block block₁)) block₁_sized [1, 2]).1⟩

end Witness

end RustProof
