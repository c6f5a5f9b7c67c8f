/-
The embedded node's storage as two maps and a pointer.

Over a key-value store that works, the calls of `Storage` for `NvsStorage` are the updates and lookups of a map of blocks,
a map of snapshots and the hash of the last snapshot: buckets, slots and envelopes do not show. A save that finds its
bucket full returns its error before it writes anything.

Results:
- `nvs_storage_is_two_maps`: after every sequence of calls, a load returns what the last save of its hash and kind that
  returned `Ok` was given, and the pointer is the hash of the last snapshot.
-/
import RustProof.Lib.Machine
import RustProof.Storage.Nvs

namespace RustProof

section Maps

variable [Crypto]

inductive StorageCall where
  | saveBlock (block : Block)
  | saveSnapshot (blockHash : Hash) (stateBytes : List UInt8)
  | loadBlock (hash : Hash)
  | loadSnapshot (hash : Hash)

/-- the key writes of a call, or its error: an error comes before the first write -/
def StorageCall.writes (σ : NvsStore) : StorageCall → Except ContractError (List Nvs.Write)
  | .saveBlock block => Nvs.saveBlock σ block
  | .saveSnapshot blockHash stateBytes => Nvs.saveSnapshot σ blockHash stateBytes
  | .loadBlock _ | .loadSnapshot _ => .ok []

structure NvsStorage where
  store : NvsStore
  /-- the calls that returned `Ok`, newest first -/
  done : List StorageCall

namespace NvsStorage

def call (σ : NvsStorage) (call : StorageCall) : NvsStorage :=
  match call.writes σ.store with
  | .ok ws => ⟨ws.foldl Nvs.apply σ.store, call :: σ.done⟩
  | .error _ => σ

def machine : Machine NvsStorage StorageCall where
  init σ := σ = ⟨.empty, []⟩
  exec σ call := some (σ.call call)

end NvsStorage

/-! ## The maps -/

/-- the block of the last `save_block` for `hash` -/
def lastBlock (hash : Hash) : List StorageCall → Option Block
  | [] => none
  | .saveBlock block :: older => if block.hash = hash then some block else lastBlock hash older
  | _ :: older => lastBlock hash older

/-- the payload of the last `save_snapshot` for `hash` -/
def lastSnapshot (hash : Hash) : List StorageCall → Option (List UInt8)
  | [] => none
  | .saveSnapshot blockHash stateBytes :: older =>
    if blockHash = hash then some stateBytes else lastSnapshot hash older
  | _ :: older => lastSnapshot hash older

/-- the hash of the last `save_snapshot` -/
def lastSnapshotHash : List StorageCall → Option Hash
  | [] => none
  | .saveSnapshot blockHash _ :: _ => some blockHash
  | _ :: older => lastSnapshotHash older

/-- postcard decodes what it encoded -/
def DecodesAgain (_ : NvsStorage) : StorageCall → Prop
  | .saveBlock block => Block.fromPostcard block.toPostcard = some block
  | _ => True

/-- the store holds the two maps and the pointer -/
structure HoldsMaps (σ : NvsStorage) : Prop where
  blocks : ∀ x, Nvs.loadBlockBytes σ.store x = .ok ((lastBlock x σ.done).map Block.toPostcard)
  decodes : ∀ x b, lastBlock x σ.done = some b → Block.fromPostcard b.toPostcard = some b ∧ b.hash = x
  snapshots : ∀ x, Nvs.loadSnapshot σ.store x = .ok (lastSnapshot x σ.done)
  latest : σ.store.get? Nvs.latestSnapshotKey = (lastSnapshotHash σ.done).map U8Array.bytes

namespace HoldsMaps

variable {σ : NvsStorage}

theorem empty : HoldsMaps ⟨.empty, []⟩ :=
  ⟨Nvs.loadHashedBlob_empty _, fun _ _ h => (nomatch h), Nvs.loadHashedBlob_empty _, rfl⟩

theorem saveBlock (h : HoldsMaps σ) {block : Block} (hdecodes : Block.fromPostcard block.toPostcard = some block)
    {ws : List Nvs.Write} (hok : Nvs.saveBlock σ.store block = .ok ws) :
    HoldsMaps ⟨ws.foldl Nvs.apply σ.store, .saveBlock block :: σ.done⟩ := by
  unfold Nvs.saveBlock at hok
  cases hw : Nvs.saveHashedBlob σ.store Nvs.blockKeyPrefix block.hash block.toPostcard with
  | error e => rw [hw] at hok; cases hok
  | ok w =>
    rw [hw] at hok
    cases hok
    obtain ⟨hown, hother, slot, hkey⟩ := Nvs.saveHashedBlob_loads hw
    refine ⟨fun x => (hown x).trans ?_, fun x b hb => ?_, fun x => (hother _ x (by decide)).trans (h.snapshots x), ?_⟩
    · rw [lastBlock]
      by_cases hx : x = block.hash
      · rw [if_pos hx, if_pos hx.symm]
        rfl
      · rw [if_neg hx, if_neg (Ne.symm hx)]
        exact h.blocks x
    · rw [lastBlock] at hb
      split_ifs at hb with hx
      · cases hb
        exact ⟨hdecodes, hx⟩
      · exact h.decodes x b hb
    · refine Eq.trans ?_ h.latest
      rw [List.foldl_cons, List.foldl_nil, Nvs.apply, hkey]
      exact BTreeMap.get?_insert_ne _ _ (Nvs.slotKey_ne_latest (by decide) _ _)

theorem saveSnapshot (h : HoldsMaps σ) {hash : Hash} {bytes : List UInt8} {ws : List Nvs.Write}
    (hok : Nvs.saveSnapshot σ.store hash bytes = .ok ws) :
    HoldsMaps ⟨ws.foldl Nvs.apply σ.store, .saveSnapshot hash bytes :: σ.done⟩ := by
  unfold Nvs.saveSnapshot at hok
  cases hw : Nvs.saveHashedBlob σ.store Nvs.snapshotKeyPrefix hash bytes with
  | error e => rw [hw] at hok; cases hok
  | ok w =>
    rw [hw] at hok
    cases hok
    obtain ⟨hown, hother, -⟩ := Nvs.saveHashedBlob_loads hw
    refine ⟨fun x => ?_, h.decodes, fun x => ?_, BTreeMap.get?_insert_self _ _ _⟩
    · rw [List.foldl_cons, List.foldl_cons, List.foldl_nil]
      have hpointer := Nvs.loadHashedBlob_latest (Nvs.apply σ.store w) hash.bytes (p := Nvs.blockKeyPrefix) (by decide) x
      exact hpointer.trans ((hother _ x (by decide)).trans (h.blocks x))
    · rw [List.foldl_cons, List.foldl_cons, List.foldl_nil]
      have hpointer := Nvs.loadHashedBlob_latest (Nvs.apply σ.store w) hash.bytes (p := Nvs.snapshotKeyPrefix) (by decide) x
      refine hpointer.trans ((hown x).trans ?_)
      rw [lastSnapshot]
      by_cases hx : x = hash
      · rw [if_pos hx, if_pos hx.symm]
      · rw [if_neg hx, if_neg (Ne.symm hx)]
        exact h.snapshots x

theorem call (h : HoldsMaps σ) {call : StorageCall} (hdecodes : DecodesAgain σ call) : HoldsMaps (σ.call call) := by
  unfold NvsStorage.call
  cases hok : call.writes σ.store with
  | error e => exact h
  | ok ws =>
    cases call with
    | saveBlock block => exact h.saveBlock hdecodes hok
    | saveSnapshot hash bytes => exact h.saveSnapshot hok
    | loadBlock hash =>
      cases hok
      exact ⟨h.blocks, h.decodes, h.snapshots, h.latest⟩
    | loadSnapshot hash =>
      cases hok
      exact ⟨h.blocks, h.decodes, h.snapshots, h.latest⟩

theorem loadBlock (h : HoldsMaps σ) (x : Hash) : Nvs.loadBlock σ.store x = .ok (lastBlock x σ.done) := by
  rw [Nvs.loadBlock, h.blocks]
  cases hlast : lastBlock x σ.done with
  | none => rfl
  | some b =>
    obtain ⟨hdecodes, hhash⟩ := h.decodes x b hlast
    exact loadBlockWith_some.2 ⟨b.toPostcard, rfl, hdecodes, hhash⟩

theorem readLatest (h : HoldsMaps σ) :
    Nvs.readHashKey σ.store Nvs.latestSnapshotKey = .ok (lastSnapshotHash σ.done) := by
  rw [Nvs.readHashKey, h.latest]
  cases lastSnapshotHash σ.done with
  | none => rfl
  | some hash =>
    rw [Option.map_some]
    dsimp only
    rw [U8Array.ofList?_bytes]

end HoldsMaps

/-- **The flash store is two maps.** After every sequence of calls on an empty store, with blocks that postcard decodes
again: a load returns what the last save of its kind for its hash that returned `Ok` was given, or nothing if there was
none, and the pointer is the hash of the last snapshot saved. The next call changes at most the entry of its own hash and
kind, and nothing if it returns an error. -/
theorem nvs_storage_is_two_maps {σ : NvsStorage} (h : NvsStorage.machine.Reached DecodesAgain σ) :
    (∀ x, Nvs.loadSnapshot σ.store x = .ok (lastSnapshot x σ.done)) ∧
    (∀ x, Nvs.loadBlock σ.store x = .ok (lastBlock x σ.done)) ∧
    Nvs.readHashKey σ.store Nvs.latestSnapshotKey = .ok (lastSnapshotHash σ.done) ∧
    ∀ call, DecodesAgain σ call →
      (∀ e, call.writes σ.store = .error e → σ.call call = σ) ∧
      (∀ x, (∀ bytes, call ≠ .saveSnapshot x bytes) →
        Nvs.loadSnapshot (σ.call call).store x = Nvs.loadSnapshot σ.store x) ∧
      ∀ x, (∀ b : Block, b.hash = x → call ≠ .saveBlock b) →
        Nvs.loadBlock (σ.call call).store x = Nvs.loadBlock σ.store x := by
  have hmaps : HoldsMaps σ := by
    refine Machine.Reached.invariant ?_ (fun σ call σ' hI hcond hexec => ?_) h
    · rintro _ rfl
      exact .empty
    · cases hexec
      exact hI.call hcond
  refine ⟨hmaps.snapshots, hmaps.loadBlock, hmaps.readLatest, fun call hdecodes => ⟨fun e he => ?_, fun x hx => ?_,
    fun x hx => ?_⟩⟩
  · rw [NvsStorage.call, he]
  · rw [(hmaps.call hdecodes).snapshots, hmaps.snapshots]
    unfold NvsStorage.call
    split
    · cases call with
      | saveSnapshot hash bytes => exact congrArg Except.ok (if_neg fun heq => hx bytes (by rw [heq]))
      | saveBlock block | loadBlock hash | loadSnapshot hash => rfl
    · rfl
  · rw [(hmaps.call hdecodes).loadBlock, hmaps.loadBlock]
    unfold NvsStorage.call
    split
    · cases call with
      | saveBlock block => exact congrArg Except.ok (if_neg fun heq => hx block heq rfl)
      | saveSnapshot hash bytes | loadBlock hash | loadSnapshot hash => rfl
    · rfl

end Maps

section Witness

open Sample

/-! ### Three snapshots in one bucket, the first of them saved again -/

def bucketHash (last : UInt8) : Hash := ⟨List.replicate 31 7 ++ [last], rfl⟩

def bucket : NvsStorage :=
  [.saveSnapshot (bucketHash 1) [1], .saveSnapshot (bucketHash 2) [2], .saveSnapshot (bucketHash 3) [3],
    .saveSnapshot (bucketHash 1) [4]].foldl NvsStorage.call ⟨.empty, []⟩

theorem bucket_reached : NvsStorage.machine.Reached DecodesAgain bucket :=
  ((((Machine.Reached.start rfl).step (m := .saveSnapshot (bucketHash 1) [1]) trivial rfl).step
    (m := .saveSnapshot (bucketHash 2) [2]) trivial rfl).step (m := .saveSnapshot (bucketHash 3) [3]) trivial rfl).step
      (m := .saveSnapshot (bucketHash 1) [4]) trivial rfl

theorem nvs_storage_is_two_maps_of_bucket :
    Nvs.loadSnapshot bucket.store (bucketHash 1) = .ok (some [4]) ∧
    Nvs.loadSnapshot bucket.store (bucketHash 2) = .ok (some [2]) ∧
    Nvs.readHashKey bucket.store Nvs.latestSnapshotKey = .ok (some (bucketHash 1)) := by
  obtain ⟨hsnapshots, -, hlatest, -⟩ := nvs_storage_is_two_maps bucket_reached
  have hfirst : lastSnapshot (bucketHash 1) bucket.done = some [4] := by decide +kernel
  have hsecond : lastSnapshot (bucketHash 2) bucket.done = some [2] := by decide +kernel
  have hhash : lastSnapshotHash bucket.done = some (bucketHash 1) := by decide +kernel
  exact ⟨hfirst ▸ hsnapshots _, hsecond ▸ hsnapshots _, hhash ▸ hlatest⟩

end Witness

end RustProof
