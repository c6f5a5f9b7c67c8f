/-
The embedded node's storage (`erp-runtime/src/storage/nvs_storage.rs`): one flash key-value namespace with short keys. A
hash does not fit into a key, so its first six bytes choose a bucket of 256 slots, and the full hash stands in front of the
payload. The key-value store itself is taken to work: reads do not fail and a write is durable when the next one starts.

Scanning a bucket is a function of the list of its slots (`scan`, `chooseSlot`). Storing the payload of one hash is
invisible to the scan for any other (`scan_update_ne`), whichever slot it went to.
-/
import Mathlib.Data.Char
import RustProof.Storage.Backend

namespace RustProof

abbrev NvsStore := BTreeMap (List Char) (List UInt8)

namespace Nvs

/-- `BLOCK_KEY_PREFIX` -/
def blockKeyPrefix : Char := 'b'

/-- `SNAPSHOT_KEY_PREFIX` -/
def snapshotKeyPrefix : Char := 's'

/-- `HASH_BUCKET_BYTES` -/
def hashBucketBytes : ℕ := 6

/-- `LATEST_SNAPSHOT_KEY` -/
def latestSnapshotKey : List Char := "latest_snap".toList

/-- a digit of `{byte:02x}` -/
def hexDigit (n : ℕ) : Char := "0123456789abcdef".toList.getD n '0'

/-- `{byte:02x}` -/
def hexByte (b : UInt8) : List Char := [hexDigit (b.toNat / 16), hexDigit (b.toNat % 16)]

def slotKey (keyPrefix : Char) (hash : Hash) (slot : UInt8) : List Char :=
  keyPrefix :: ((hash.bytes.take hashBucketBytes).flatMap hexByte ++ hexByte slot)

/-- `u8::MIN..=u8::MAX` -/
def slots : List UInt8 := (List.range 256).map UInt8.ofNat

def encodeEnvelope (hash : Hash) (payload : List UInt8) : List UInt8 := hash.bytes ++ payload

/-- the loop of `load_hashed_blob`, over what the slots hold -/
def scan (hash : Hash) : List (Option (List UInt8)) → Except ContractError (Option (List UInt8))
  | [] => .ok none
  | none :: rest => scan hash rest
  | some buffer :: rest =>
    if buffer.length < 32 then .error .storage
    else if buffer.take 32 = hash.bytes then .ok (some (buffer.drop 32))
    else scan hash rest

def loadHashedBlob (σ : NvsStore) (keyPrefix : Char) (hash : Hash) : Except ContractError (Option (List UInt8)) :=
  scan hash (slots.map fun slot => σ.get? (slotKey keyPrefix hash slot))

/-- the loop of `save_hashed_blob`: the slot it writes to -/
def chooseSlot (hash : Hash) (read : UInt8 → Option (List UInt8)) : List UInt8 → Except ContractError UInt8
  | [] => .error .storage
  | slot :: rest =>
    match read slot with
    | none => .ok slot
    | some buffer =>
      if buffer.length < 32 then .error .storage
      else if buffer.take 32 = hash.bytes then .ok slot
      else chooseSlot hash read rest

/-- one key write: key and value -/
abbrev Write := List Char × List UInt8

def saveHashedBlob (σ : NvsStore) (keyPrefix : Char) (hash : Hash) (payload : List UInt8) : Except ContractError Write := do
  let slot ← chooseSlot hash (fun slot => σ.get? (slotKey keyPrefix hash slot)) slots
  pure (slotKey keyPrefix hash slot, encodeEnvelope hash payload)

def apply (σ : NvsStore) (w : Write) : NvsStore := σ.insert w.1 w.2

/-! ## Buckets -/

/-- what a chosen slot held, and that the scan reaches it -/
theorem chooseSlot_ok {hash : Hash} {read : UInt8 → Option (List UInt8)} {l : List UInt8} {slot : UInt8}
    (h : chooseSlot hash read l = .ok slot) :
    (read slot = none ∨ ∃ old, read slot = some old ∧ 32 ≤ old.length ∧ old.take 32 = hash.bytes) ∧
      ∀ (read' : UInt8 → Option (List UInt8)) (payload : List UInt8),
        (∀ s, read' s = read s ∨ read' s = some (encodeEnvelope hash payload)) →
        read' slot = some (encodeEnvelope hash payload) → scan hash (l.map read') = .ok (some payload) := by
  have henv : ∀ payload, ¬ (encodeEnvelope hash payload).length < 32 ∧
      (encodeEnvelope hash payload).take 32 = hash.bytes ∧ (encodeEnvelope hash payload).drop 32 = payload := by
    intro payload
    have hsize := hash.size_eq
    refine ⟨by simp [encodeEnvelope, hsize], ?_, ?_⟩
    · rw [encodeEnvelope, List.take_append_of_le_length (by omega), List.take_of_length_le (by omega)]
    · rw [encodeEnvelope, List.drop_append_of_le_length (by omega), List.drop_of_length_le (by omega), List.nil_append]
  induction l with
  | nil => cases h
  | cons x l ih =>
    rw [chooseSlot] at h
    -- `x` now holds the envelope
    have hhit : ∀ (read' : UInt8 → Option (List UInt8)) payload, read' x = some (encodeEnvelope hash payload) →
        scan hash ((x :: l).map read') = .ok (some payload) := by
      intro read' payload hr
      obtain ⟨h1, h2, h3⟩ := henv payload
      rw [List.map_cons, hr, scan, if_neg h1, if_pos h2, h3]
    cases hx : read x with
    | none =>
      rw [hx] at h
      cases h
      exact ⟨.inl hx, fun read' payload _ hr => hhit read' payload hr⟩
    | some old =>
      rw [hx] at h
      simp only at h
      split_ifs at h with hlen heq
      · cases h
        exact ⟨.inr ⟨old, hx, Nat.le_of_not_lt hlen, heq⟩, fun read' payload _ hr => hhit read' payload hr⟩
      · obtain ⟨h1, h2⟩ := ih h
        refine ⟨h1, fun read' payload hsame hr => ?_⟩
        rcases hsame x with hx' | hx'
        · rw [List.map_cons, hx', hx, scan, if_neg hlen, if_neg heq]
          exact h2 read' payload hsame hr
        · exact hhit read' payload hx'

/-- two buckets that differ only in envelopes of `hash`, or in slots that were free, look the same to every other hash -/
theorem scan_update_ne {hash other : Hash} (hne : other ≠ hash) {l l' : List (Option (List UInt8))}
    (h : List.Forall₂ (fun old new => new = old ∨
      (old = none ∨ ∃ x, old = some x ∧ 32 ≤ x.length ∧ x.take 32 = hash.bytes) ∧
        ∃ payload, new = some (encodeEnvelope hash payload)) l l') : scan other l' = scan other l := by
  -- an envelope of `hash` is passed over
  have hpass : ∀ x : List UInt8, ∀ rest, 32 ≤ x.length → x.take 32 = hash.bytes →
      scan other (some x :: rest) = scan other rest := by
    intro x rest hlen htake
    rw [scan, if_neg (by omega), if_neg]
    intro he
    exact hne (U8Array.ext_bytes (he.symm.trans htake))
  have henv : ∀ payload, 32 ≤ (encodeEnvelope hash payload).length ∧
      (encodeEnvelope hash payload).take 32 = hash.bytes := by
    intro payload
    have hsize := hash.size_eq
    refine ⟨by simp [encodeEnvelope, hsize], ?_⟩
    rw [encodeEnvelope, List.take_append_of_le_length (by omega), List.take_of_length_le (by omega)]
  induction h with
  | nil => rfl
  | @cons old new l l' hslot _ ih =>
    rcases hslot with rfl | ⟨hold, payload, rfl⟩
    · cases new with
      | none => exact ih
      | some x =>
        simp only [scan]
        rw [ih]
    · rw [hpass _ _ (henv payload).1 (henv payload).2, ih]
      rcases hold with rfl | ⟨x, rfl, hlen, htake⟩
      · rfl
      · rw [hpass x l hlen htake]

/-! ## Saves and loads -/

theorem slotKey_ne_of_char {p p' : Char} (h : p ≠ p') (hash hash' : Hash) (slot slot' : UInt8) :
    slotKey p hash slot ≠ slotKey p' hash' slot' := fun he => h (List.cons.inj he).1

theorem slotKey_ne_latest {p : Char} (h : p ≠ 'l') (hash : Hash) (slot : UInt8) :
    slotKey p hash slot ≠ latestSnapshotKey := fun he => h (List.cons.inj he).1

/-- a save is seen by the loads of its hash and kind, and by no other -/
theorem saveHashedBlob_loads {σ : NvsStore} {p : Char} {hash : Hash} {payload : List UInt8} {w : Write}
    (h : saveHashedBlob σ p hash payload = .ok w) :
    (∀ other, loadHashedBlob (apply σ w) p other =
      if other = hash then .ok (some payload) else loadHashedBlob σ p other) ∧
    (∀ p' other, p' ≠ p → loadHashedBlob (apply σ w) p' other = loadHashedBlob σ p' other) ∧
    ∃ slot, w.1 = slotKey p hash slot := by
  unfold saveHashedBlob at h
  cases hc : chooseSlot hash (fun slot => σ.get? (slotKey p hash slot)) slots with
  | error e => rw [hc] at h; cases h
  | ok slot =>
    rw [hc] at h
    cases h
    obtain ⟨hold, hscan⟩ := chooseSlot_ok hc
    refine ⟨fun other => ?_, fun p' other hp => ?_, slot, rfl⟩
    · split_ifs with heq
      · subst heq
        refine hscan _ payload (fun s => ?_) (BTreeMap.get?_insert_self _ _ _)
        simp only [apply, BTreeMap.get?_insert]
        split_ifs
        · exact .inr rfl
        · exact .inl rfl
      · unfold loadHashedBlob
        refine scan_update_ne heq ?_
        rw [List.forall₂_map_left_iff, List.forall₂_map_right_iff]
        refine List.forall₂_same.2 fun s _ => ?_
        simp only [apply, BTreeMap.get?_insert]
        split_ifs with hkey
        · rw [← hkey]
          exact .inr ⟨hold, payload, rfl⟩
        · exact .inl rfl
    · unfold loadHashedBlob apply
      congr 2
      funext s
      rw [BTreeMap.get?_insert_ne _ _ (slotKey_ne_of_char hp.symm _ _ _ _)]

theorem saveHashedBlob_ok {σ : NvsStore} {p : Char} {hash : Hash} {payload : List UInt8} {w : Write}
    (h : saveHashedBlob σ p hash payload = .ok w) :
    (∀ other, found (loadHashedBlob (apply σ w) p other) =
      Function.update (fun x => found (loadHashedBlob σ p x)) hash (some payload) other) ∧
    (∀ p' other, p' ≠ p → loadHashedBlob (apply σ w) p' other = loadHashedBlob σ p' other) ∧
    ∃ slot, w.1 = slotKey p hash slot := by
  obtain ⟨hown, hrest⟩ := saveHashedBlob_loads h
  refine ⟨fun other => ?_, hrest⟩
  rw [hown, Function.update_apply]
  split_ifs
  · rfl
  · rfl

/-- the pointer is written outside every bucket -/
theorem loadHashedBlob_latest (σ : NvsStore) (bytes : List UInt8) {p : Char} (hp : p ≠ 'l') (hash : Hash) :
    loadHashedBlob (apply σ (latestSnapshotKey, bytes)) p hash = loadHashedBlob σ p hash := by
  unfold loadHashedBlob apply
  congr 2
  funext s
  rw [BTreeMap.get?_insert_ne _ _ (slotKey_ne_latest hp _ _).symm]

/-- an empty store finds nothing -/
theorem scan_free (hash : Hash) (n : ℕ) : scan hash (List.replicate n none) = .ok none := by
  induction n with
  | zero => rfl
  | succ n ih => exact ih

theorem loadHashedBlob_empty (p : Char) (hash : Hash) : loadHashedBlob .empty p hash = .ok none := by
  have hfree : (slots.map fun slot => (BTreeMap.empty : NvsStore).get? (slotKey p hash slot)) =
      List.replicate slots.length none := List.map_const
  rw [loadHashedBlob, hfree]
  exact scan_free hash _

/-! ## The storage operations -/

variable [Crypto]

def saveBlock (σ : NvsStore) (block : Block) : Except ContractError (List Write) := do
  let w ← saveHashedBlob σ blockKeyPrefix block.hash block.toPostcard
  pure [w]

def saveSnapshot (σ : NvsStore) (blockHash : Hash) (stateBytes : List UInt8) : Except ContractError (List Write) := do
  let w ← saveHashedBlob σ snapshotKeyPrefix blockHash stateBytes
  pure [w, (latestSnapshotKey, blockHash.bytes)]

def loadBlockBytes (σ : NvsStore) (hash : Hash) : Except ContractError (Option (List UInt8)) :=
  loadHashedBlob σ blockKeyPrefix hash

def loadSnapshot (σ : NvsStore) (hash : Hash) : Except ContractError (Option (List UInt8)) :=
  loadHashedBlob σ snapshotKeyPrefix hash

def loadBlock (σ : NvsStore) (hash : Hash) : Except ContractError (Option Block) :=
  loadBlockWith Block.fromPostcard hash (loadBlockBytes σ hash)

/-- `read_hash_key` -/
def readHashKey (σ : NvsStore) (key : List Char) : Except ContractError (Option Hash) :=
  match σ.get? key with
  | none => .ok none
  | some bytes =>
    match U8Array.ofList? 32 bytes with
    | none => .error .storage
    | some hash => .ok (some hash)

/-- errors on the way are taken for nothing to restore -/
def loadLatestSnapshotBundleWith (decode : List UInt8 → Option Block) (σ : NvsStore) :
    Except ContractError (Option (Block × List UInt8)) :=
  match readHashKey σ latestSnapshotKey with
  | .ok none | .error _ => .ok none
  | .ok (some hash) =>
    match loadBlockWith decode hash (loadBlockBytes σ hash) with
    | .ok none | .error _ => .ok none
    | .ok (some block) =>
      match loadSnapshot σ hash with
      | .ok none | .error _ => .ok none
      | .ok (some stateBytes) => .ok (some (block, stateBytes))

def loadLatestSnapshotBundle (σ : NvsStore) : Except ContractError (Option (Block × List UInt8)) :=
  loadLatestSnapshotBundleWith Block.fromPostcard σ

theorem bundle_some {σ : NvsStore} {b : Block} {bytes : List UInt8} :
    loadLatestSnapshotBundle σ = .ok (some (b, bytes)) ↔
      σ.get? latestSnapshotKey = some b.hash.bytes ∧
        (∃ blockBytes, found (loadBlockBytes σ b.hash) = some blockBytes ∧ Block.fromPostcard blockBytes = some b) ∧
        found (loadSnapshot σ b.hash) = some bytes := by
  unfold loadLatestSnapshotBundle loadLatestSnapshotBundleWith readHashKey
  constructor
  · intro h
    cases hptr : σ.get? latestSnapshotKey with
    | none => rw [hptr] at h; cases h
    | some ptr =>
      simp only [hptr] at h
      cases hhash : U8Array.ofList? 32 ptr with
      | none => rw [hhash] at h; cases h
      | some hash =>
        simp only [hhash] at h
        cases hblock : loadBlockWith Block.fromPostcard hash (loadBlockBytes σ hash) with
        | error e => rw [hblock] at h; cases h
        | ok r =>
          rw [hblock] at h
          cases r with
          | none => cases h
          | some x =>
            obtain ⟨blockBytes, h1, h2, rfl⟩ := loadBlockWith_some.1 hblock
            cases hsnap : loadSnapshot σ x.hash with
            | error e => simp only [hsnap] at h; cases h
            | ok r' =>
              cases r' with
              | none => simp only [hsnap] at h; cases h
              | some stateBytes =>
                simp only [hsnap, Except.ok.injEq, Option.some.injEq, Prod.mk.injEq] at h
                obtain ⟨rfl, rfl⟩ := h
                refine ⟨by rw [U8Array.eq_of_ofList? hhash], ⟨blockBytes, h1, h2⟩, ?_⟩
                rw [hsnap]
                rfl
  · rintro ⟨hptr, ⟨blockBytes, h1, h2⟩, hsnap⟩
    have hblock := loadBlockWith_some.2 ⟨blockBytes, h1, h2, rfl⟩
    simp only [hptr, U8Array.ofList?_bytes, hblock]
    cases hs : loadSnapshot σ b.hash with
    | error e => rw [hs] at hsnap; cases hsnap
    | ok r =>
      rw [hs] at hsnap
      cases hsnap
      rfl

end Nvs

/-- `NvsStorage` -/
def nvsBackend [Crypto] : Backend where
  Store := NvsStore
  Write := Nvs.Write
  empty := .empty
  apply := Nvs.apply
  saveBlock := Nvs.saveBlock
  saveSnapshot := Nvs.saveSnapshot
  loadBlockBytes := Nvs.loadBlockBytes
  loadSnapshot := Nvs.loadSnapshot
  latest σ := σ.get? Nvs.latestSnapshotKey
  loadLatestSnapshotBundle := Nvs.loadLatestSnapshotBundle
  blocks_empty h := by rw [Nvs.loadBlockBytes, Nvs.loadHashedBlob_empty]; rfl
  snapshots_empty h := by rw [Nvs.loadSnapshot, Nvs.loadHashedBlob_empty]; rfl
  latest_empty := rfl
  saveBlock_ok := by
    intro σ b ws h
    unfold Nvs.saveBlock at h
    cases hw : Nvs.saveHashedBlob σ Nvs.blockKeyPrefix b.hash b.toPostcard with
    | error e => rw [hw] at h; cases h
    | ok w =>
      rw [hw] at h
      cases h
      obtain ⟨hown, hother, slot, hkey⟩ := Nvs.saveHashedBlob_ok hw
      refine ⟨w, rfl, hown, fun x => congrArg found (hother Nvs.snapshotKeyPrefix x (by decide)), ?_⟩
      rw [Nvs.apply, hkey, BTreeMap.get?_insert_ne _ _ (Nvs.slotKey_ne_latest (by decide) _ _)]
  saveSnapshot_ok := by
    intro σ hash bytes ws h
    unfold Nvs.saveSnapshot at h
    cases hw : Nvs.saveHashedBlob σ Nvs.snapshotKeyPrefix hash bytes with
    | error e => rw [hw] at h; cases h
    | ok w =>
      rw [hw] at h
      cases h
      obtain ⟨hown, hother, slot, hkey⟩ := Nvs.saveHashedBlob_ok hw
      refine ⟨w, _, rfl, ⟨fun x => congrArg found (hother Nvs.blockKeyPrefix x (by decide)), hown, ?_⟩,
        fun x => congrArg found (Nvs.loadHashedBlob_latest _ _ (by decide) x),
        fun x => congrArg found (Nvs.loadHashedBlob_latest _ _ (by decide) x), ?_⟩
      · rw [Nvs.apply, hkey, BTreeMap.get?_insert_ne _ _ (Nvs.slotKey_ne_latest (by decide) _ _)]
      · exact BTreeMap.get?_insert_self _ _ _
  bundle_none := by
    intro σ h
    simp only [Nvs.loadLatestSnapshotBundle, Nvs.loadLatestSnapshotBundleWith, Nvs.readHashKey, h]
  bundle_some := Nvs.bundle_some

end RustProof
