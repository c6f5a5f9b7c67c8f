/-
What a start finds in a damaged store (`rp-runtime/src/storage/manager.rs`, `erp-runtime/src/storage/nvs_storage.rs`).

The results are about the loaders of the latest snapshot bundle over an arbitrary decoder of blocks
(`loadLatestSnapshotBundleWith`), of which the ones of the backends are an instance. A start should get what is restorable (`View.restorable`), and nothing from
everything else.

Results:
- `Nvs.bundleWith_eq`: the embedded loader returns what is restorable, from every store;
- `Sled.bundleWith_eq`: the host's loader does so exactly where a block stored under the pointer is readable; elsewhere it
  returns an error, and the host does not start;
- `startup_falls_back_iff`: the two together.
-/
import RustProof.Storage.Nvs
import RustProof.Storage.Sled

namespace RustProof

section Loaders

variable [Crypto]

/-! ## What can be restored -/

/-- the block under the pointer, if it is there, decodes, and has that hash -/
def View.blockAt (decode : List UInt8 → Option Block) (v : View) (hash : Hash) : Option Block :=
  ((v.blocks hash).bind decode).filter fun block => block.hash = hash

/-- block and snapshot of the pointer -/
def View.restorable (decode : List UInt8 → Option Block) (v : View) : Option (Block × List UInt8) := do
  let hash ← v.latest.bind (U8Array.ofList? 32)
  let block ← v.blockAt decode hash
  let stateBytes ← v.snapshots hash
  some (block, stateBytes)

/-- what is stored as the block of the pointer is that block -/
def View.Readable (decode : List UInt8 → Option Block) (v : View) : Prop :=
  ∀ hash bytes, v.latest = some hash.bytes → v.blocks hash = some bytes → ∃ block, decode bytes = some block ∧
    block.hash = hash

/-- the answers a start can go on from -/
def View.Clean (decode : List UInt8 → Option Block) (v : View)
    (r : Except ContractError (Option (Block × List UInt8))) : Prop :=
  r = .ok none ∨ ∃ block stateBytes, r = .ok (some (block, stateBytes)) ∧ v.latest = some block.hash.bytes ∧
    (v.blocks block.hash).bind decode = some block ∧ v.snapshots block.hash = some stateBytes

variable {decode : List UInt8 → Option Block}

theorem View.blockAt_eq_some {v : View} {hash : Hash} {block : Block} :
    v.blockAt decode hash = some block ↔ (v.blocks hash).bind decode = some block ∧ block.hash = hash := by
  rw [View.blockAt, Option.filter_eq_some_iff, decide_eq_true_eq]

theorem View.clean_restorable (v : View) : v.Clean decode (.ok (v.restorable decode)) := by
  cases hr : v.restorable decode with
  | none => exact .inl rfl
  | some r =>
    obtain ⟨hash, hhash, h⟩ := Option.bind_eq_some_iff.1 hr
    obtain ⟨block, hblock, h⟩ := Option.bind_eq_some_iff.1 h
    obtain ⟨stateBytes, hbytes, h⟩ := Option.bind_eq_some_iff.1 h
    cases h
    obtain ⟨ptr, hptr, hptr'⟩ := Option.bind_eq_some_iff.1 hhash
    obtain ⟨hdecode, rfl⟩ := View.blockAt_eq_some.1 hblock
    refine .inr ⟨block, stateBytes, rfl, ?_, hdecode, hbytes⟩
    rw [hptr, U8Array.eq_of_ofList? hptr']

/-- of the block of its pointer it depends only on what is stored under that hash -/
theorem View.readable_iff {v : View} {hash : Hash} {bytes : List UInt8} (hlatest : v.latest = some hash.bytes)
    (hbytes : v.blocks hash = some bytes) : v.Readable decode ↔ ∃ block, decode bytes = some block ∧ block.hash = hash := by
  constructor
  · intro h
    exact h hash bytes hlatest hbytes
  · intro h hash' bytes' hh hb
    rw [hlatest] at hh
    rw [← U8Array.ext_bytes (Option.some.inj hh)] at hb ⊢
    cases hbytes.symm.trans hb
    exact h

theorem View.readable_of_none {v : View} {hash : Hash} (hlatest : v.latest = some hash.bytes)
    (hnone : v.blocks hash = none) : v.Readable decode := by
  intro hash' bytes hh hb
  rw [hlatest] at hh
  rw [← U8Array.ext_bytes (Option.some.inj hh), hnone] at hb
  cases hb

/-! ## The two loaders -/

theorem found_loadBlockWith (hash : Hash) (r : Except ContractError (Option (List UInt8))) :
    found (loadBlockWith decode hash r) = ((found r).bind decode).filter fun block => block.hash = hash := by
  rcases r with e | _ | bytes
  · rfl
  · rfl
  · cases hd : decode bytes with
    | none => simp [loadBlockWith, hd, found]
    | some block =>
      by_cases hh : block.hash = hash
      · simp [loadBlockWith, hd, found, hh, Option.filter_some]
      · simp [loadBlockWith, hd, found, hh, Option.filter_some]

omit [Crypto] in
theorem Nvs.found_readHashKey (σ : NvsStore) :
    found (readHashKey σ latestSnapshotKey) = (σ.get? latestSnapshotKey).bind (U8Array.ofList? 32) := by
  unfold readHashKey
  cases σ.get? latestSnapshotKey with
  | none => rfl
  | some bytes =>
    rw [Option.bind_some]
    dsimp only
    cases U8Array.ofList? 32 bytes <;> rfl

/-- a loader that goes on only with what it found sees nothing else of its steps -/
theorem found_steps (pointer : Except ContractError (Option Hash)) (block : Hash → Except ContractError (Option Block))
    (snapshot : Hash → Except ContractError (Option (List UInt8))) :
    (match pointer with
      | .ok none | .error _ => .ok none
      | .ok (some hash) =>
        match block hash with
        | .ok none | .error _ => .ok none
        | .ok (some b) =>
          match snapshot hash with
          | .ok none | .error _ => .ok none
          | .ok (some stateBytes) => .ok (some (b, stateBytes)) :
      Except ContractError (Option (Block × List UInt8))) =
    .ok ((found pointer).bind fun hash => (found (block hash)).bind fun b => (found (snapshot hash)).bind fun stateBytes =>
      some (b, stateBytes)) := by
  rcases pointer with e | _ | hash
  · rfl
  · rfl
  · dsimp only [found]
    rw [Option.bind_some]
    rcases block hash with e | _ | b
    · rfl
    · rfl
    · dsimp only
      rw [Option.bind_some]
      rcases snapshot hash with e | _ | stateBytes <;> rfl

/-- the embedded loader takes every error for nothing -/
theorem Nvs.bundleWith_eq (decode : List UInt8 → Option Block) (σ : NvsStore) :
    Nvs.loadLatestSnapshotBundleWith decode σ = .ok ((nvsBackend.view σ).restorable decode) := by
  rw [Nvs.loadLatestSnapshotBundleWith]
  refine (found_steps _ (fun hash => loadBlockWith decode hash (loadBlockBytes σ hash)) _).trans ?_
  simp only [found_readHashKey, found_loadBlockWith]
  rfl

/-- the host's loader passes on what `load_block` says about a block it cannot read -/
theorem Sled.bundleWith_eq (decode : List UInt8 → Option Block) (σ : SledStore) :
    (sledBackend.view σ).Readable decode ∧
        Sled.loadLatestSnapshotBundleWith decode σ = .ok ((sledBackend.view σ).restorable decode) ∨
      ¬ (sledBackend.view σ).Readable decode ∧ Sled.loadLatestSnapshotBundleWith decode σ = .error .storage := by
  have hlatest : (sledBackend.view σ).latest = σ.metaTree.get? latestSnapshotKey := rfl
  have hblocks : ∀ hash, (sledBackend.view σ).blocks hash = σ.blocks.get? hash := fun _ => rfl
  have hsnapshots : ∀ hash, (sledBackend.view σ).snapshots hash = σ.snapshots.get? hash := fun _ => rfl
  unfold Sled.loadLatestSnapshotBundleWith View.restorable View.blockAt
  simp only [hlatest, hblocks, hsnapshots]
  cases hptr : σ.metaTree.get? latestSnapshotKey with
  | none =>
    refine .inl ⟨?_, rfl⟩
    intro hash bytes h
    cases (hlatest.trans hptr).symm.trans h
  | some ptr =>
    rw [hptr] at hlatest
    simp only [Option.bind_some]
    cases hhash : U8Array.ofList? 32 ptr with
    | none =>
      refine .inl ⟨?_, rfl⟩
      intro hash bytes h
      rw [Option.some.inj (hlatest.symm.trans h), U8Array.ofList?_bytes] at hhash
      cases hhash
    | some hash =>
      obtain rfl := U8Array.eq_of_ofList? hhash
      simp only [loadBlockBytes]
      cases hbytes : σ.blocks.get? hash with
      | none =>
        refine .inl ⟨View.readable_of_none hlatest hbytes, ?_⟩
        simp [loadBlockWith, hbytes, bind, Except.bind, pure, Except.pure]
      | some bytes =>
        rw [View.readable_iff hlatest hbytes]
        cases hd : decode bytes with
        | none => exact .inr ⟨by simp, by simp [loadBlockWith, hd, bind, Except.bind]⟩
        | some block =>
          by_cases hh : block.hash = hash
          · refine .inl ⟨⟨block, rfl, hh⟩, ?_⟩
            simp only [loadBlockWith, hd, hh, ne_eq, not_true_eq_false, if_false, bind, Except.bind, loadSnapshot,
              hbytes, Option.bind, Option.filter_some, decide_true, if_true]
            cases σ.snapshots.get? hash <;> rfl
          · refine .inr ⟨?_, by simp [loadBlockWith, hd, hh, bind, Except.bind]⟩
            rintro ⟨block', h', hh'⟩
            cases h'
            exact hh hh'

/-- **A start falls back cleanly exactly if the host can read the block of its pointer.** -/
theorem startup_falls_back_iff (decode : List UInt8 → Option Block) (σ : SledStore) (τ : NvsStore) :
    ((sledBackend.view σ).Clean decode (Sled.loadLatestSnapshotBundleWith decode σ) ∧
      (nvsBackend.view τ).Clean decode (Nvs.loadLatestSnapshotBundleWith decode τ) ∧
      (sledBackend.view σ = nvsBackend.view τ →
        Sled.loadLatestSnapshotBundleWith decode σ = Nvs.loadLatestSnapshotBundleWith decode τ)) ↔
    (sledBackend.view σ).Readable decode := by
  rcases Sled.bundleWith_eq decode σ with ⟨hreadable, hok⟩ | ⟨hreadable, herror⟩
  · refine iff_of_true ⟨?_, ?_, ?_⟩ hreadable
    · rw [hok]
      exact View.clean_restorable _
    · rw [Nvs.bundleWith_eq]
      exact View.clean_restorable _
    · intro hsame
      rw [hok, Nvs.bundleWith_eq, hsame]
  · refine iff_of_false ?_ hreadable
    rintro ⟨hclean, -, -⟩
    rw [herror] at hclean
    rcases hclean with h | ⟨_, _, h, -⟩
    · cases h
    · cases h

end Loaders

section Witness

open Sample

/-- a pointer to a block whose stored bytes are empty -/
def Sample.damagedStore : SledStore :=
  ⟨BTreeMap.empty.insert Sled.latestSnapshotKey (digestBytes 1).bytes, BTreeMap.empty.insert (digestBytes 1) [], .empty⟩

theorem startup_fails_on_damaged :
    Sled.loadLatestSnapshotBundle Sample.damagedStore = .error .storage ∧
      ¬ (sledBackend.view Sample.damagedStore).Clean Block.fromPostcard
        (Sled.loadLatestSnapshotBundleWith Block.fromPostcard Sample.damagedStore) := by
  have herror : Sled.loadLatestSnapshotBundle Sample.damagedStore = .error .storage := rfl
  refine ⟨herror, ?_⟩
  change ¬ (sledBackend.view Sample.damagedStore).Clean Block.fromPostcard (Sled.loadLatestSnapshotBundle Sample.damagedStore)
  rw [herror]
  rintro (h | ⟨_, _, h, -⟩)
  · cases h
  · cases h

end Witness

end RustProof
