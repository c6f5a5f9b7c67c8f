/-
The host's storage (`rp-runtime/src/storage/manager.rs`): three trees of a sled database. The database itself is taken to
work: reads do not fail and a write is durable when the next one starts.
-/
import Mathlib.Data.Char
import RustProof.Storage.Backend

namespace RustProof

variable [Crypto]

/-- `META_TREE`, `BLOCKS_TREE`, `SNAPSHOTS_TREE`; the last two are only ever addressed by block hashes -/
structure SledStore where
  metaTree : BTreeMap (List Char) (List UInt8)
  blocks : BTreeMap Hash (List UInt8)
  snapshots : BTreeMap Hash (List UInt8)

inductive SledWrite where
  | metaTree (key : List Char) (value : List UInt8)
  | blocks (key : Hash) (value : List UInt8)
  | snapshots (key : Hash) (value : List UInt8)

namespace Sled

/-- `LATEST_SNAPSHOT_KEY` -/
def latestSnapshotKey : List Char := "latest_snapshot".toList

def empty : SledStore := ⟨.empty, .empty, .empty⟩

def apply (σ : SledStore) : SledWrite → SledStore
  | .metaTree key value => { σ with metaTree := σ.metaTree.insert key value }
  | .blocks key value => { σ with blocks := σ.blocks.insert key value }
  | .snapshots key value => { σ with snapshots := σ.snapshots.insert key value }

def saveBlock (_ : SledStore) (block : Block) : Except ContractError (List SledWrite) :=
  .ok [.blocks block.hash block.toPostcard]

def saveSnapshot (_ : SledStore) (blockHash : Hash) (stateBytes : List UInt8) : Except ContractError (List SledWrite) :=
  .ok [.snapshots blockHash stateBytes, .metaTree latestSnapshotKey blockHash.bytes]

def loadBlockBytes (σ : SledStore) (hash : Hash) : Except ContractError (Option (List UInt8)) := .ok (σ.blocks.get? hash)

def loadSnapshot (σ : SledStore) (hash : Hash) : Except ContractError (Option (List UInt8)) := .ok (σ.snapshots.get? hash)

def loadBlock (σ : SledStore) (hash : Hash) : Except ContractError (Option Block) :=
  loadBlockWith Block.fromPostcard hash (loadBlockBytes σ hash)

/-- errors of `load_block` and `load_snapshot` are passed on -/
def loadLatestSnapshotBundleWith (decode : List UInt8 → Option Block) (σ : SledStore) :
    Except ContractError (Option (Block × List UInt8)) :=
  match σ.metaTree.get? latestSnapshotKey with
  | none => .ok none
  | some bytes =>
    match U8Array.ofList? 32 bytes with
    | none => .ok none
    | some hash => do
      match ← loadBlockWith decode hash (loadBlockBytes σ hash) with
      | none => pure none
      | some block =>
        match ← loadSnapshot σ hash with
        | none => pure none
        | some stateBytes => pure (some (block, stateBytes))

def loadLatestSnapshotBundle (σ : SledStore) : Except ContractError (Option (Block × List UInt8)) :=
  loadLatestSnapshotBundleWith Block.fromPostcard σ

theorem bundle_some {σ : SledStore} {b : Block} {bytes : List UInt8} :
    loadLatestSnapshotBundle σ = .ok (some (b, bytes)) ↔
      σ.metaTree.get? latestSnapshotKey = some b.hash.bytes ∧
        (∃ blockBytes, σ.blocks.get? b.hash = some blockBytes ∧ Block.fromPostcard blockBytes = some b) ∧
        σ.snapshots.get? b.hash = some bytes := by
  unfold loadLatestSnapshotBundle loadLatestSnapshotBundleWith
  constructor
  · intro h
    split at h
    · cases h
    · rename_i ptr hptr
      split at h
      · cases h
      · rename_i hash hhash
        cases hblock : loadBlockWith Block.fromPostcard hash (loadBlockBytes σ hash) with
        | error e => rw [hblock] at h; cases h
        | ok r =>
          rw [hblock] at h
          cases r with
          | none => cases h
          | some x =>
            obtain ⟨blockBytes, h1, h2, rfl⟩ := loadBlockWith_some.1 hblock
            cases hsnap : σ.snapshots.get? x.hash with
            | none => simp [bind, Except.bind, loadSnapshot, hsnap, pure, Except.pure] at h
            | some stateBytes =>
              simp only [bind, Except.bind, loadSnapshot, hsnap, pure, Except.pure, Except.ok.injEq, Option.some.injEq,
                Prod.mk.injEq] at h
              obtain ⟨rfl, rfl⟩ := h
              refine ⟨?_, ⟨blockBytes, h1, h2⟩, hsnap⟩
              rw [hptr, U8Array.eq_of_ofList? hhash]
  · rintro ⟨hptr, ⟨blockBytes, h1, h2⟩, hsnap⟩
    have hblock : loadBlockWith Block.fromPostcard b.hash (loadBlockBytes σ b.hash) = .ok (some b) :=
      loadBlockWith_some.2 ⟨blockBytes, h1, h2, rfl⟩
    simp only [hptr, U8Array.ofList?_bytes, hblock, bind, Except.bind, loadSnapshot, hsnap, pure, Except.pure]

end Sled

/-- `SledStorage` -/
def sledBackend : Backend where
  Store := SledStore
  Write := SledWrite
  empty := Sled.empty
  apply := Sled.apply
  saveBlock := Sled.saveBlock
  saveSnapshot := Sled.saveSnapshot
  loadBlockBytes := Sled.loadBlockBytes
  loadSnapshot := Sled.loadSnapshot
  latest σ := σ.metaTree.get? Sled.latestSnapshotKey
  loadLatestSnapshotBundle := Sled.loadLatestSnapshotBundle
  blocks_empty _ := rfl
  snapshots_empty _ := rfl
  latest_empty := rfl
  saveBlock_ok := by
    intro σ b ws h
    cases h
    refine ⟨_, rfl, fun x => ?_, fun _ => rfl, rfl⟩
    simp only [found, Sled.loadBlockBytes, Sled.apply, BTreeMap.get?_insert, Function.update_apply, eq_comm]
  saveSnapshot_ok := by
    intro σ hash bytes ws h
    cases h
    refine ⟨_, _, rfl, ⟨fun _ => rfl, fun x => ?_, rfl⟩, fun _ => rfl, fun _ => rfl, ?_⟩
    · simp only [found, Sled.loadSnapshot, Sled.apply, BTreeMap.get?_insert, Function.update_apply, eq_comm]
    · simp only [Sled.apply, BTreeMap.get?_insert_self]
  bundle_none := by
    intro σ h
    simp only [Sled.loadLatestSnapshotBundle, Sled.loadLatestSnapshotBundleWith, h]
  bundle_some := Sled.bundle_some

end RustProof
