/-
Persistence, over any storage backend.

A backend executes the persist commands it receives in order, each as a list of single key writes, and stops at the first
command it cannot carry out (`StorageManager::run` returns the error). A crash leaves a prefix of the key writes.

What a backend is for is two maps and a pointer (`View`): blocks by hash, snapshots by hash, the hash of the latest
snapshot. `Backend` carries the proofs that its writes are writes of the view, one for one, and that a start reads what
the view holds. `crash_view` lifts this to whole logs and every crash point, so that the results about persistence argue
about the view only.
-/
import RustProof.Node.Engine

namespace RustProof

inductive ContractError where
  | storage
  | transport
  | wake
  | identity
  | other
deriving DecidableEq, Repr

/-! ## What is stored -/

structure View where
  blocks : Hash → Option (List UInt8)
  snapshots : Hash → Option (List UInt8)
  latest : Option (List UInt8)

/-- one key write -/
inductive KeyWrite where
  | block (hash : Hash) (bytes : List UInt8)
  | snapshot (hash : Hash) (bytes : List UInt8)
  | latest (hash : Hash)

namespace View

def empty : View := ⟨fun _ => none, fun _ => none, none⟩

def apply (v : View) : KeyWrite → View
  | .block hash bytes => { v with blocks := Function.update v.blocks hash (some bytes) }
  | .snapshot hash bytes => { v with snapshots := Function.update v.snapshots hash (some bytes) }
  | .latest hash => { v with latest := some hash.bytes }

def applyAll (v : View) (ws : List KeyWrite) : View := ws.foldl apply v

theorem applyAll_append (v : View) (ws ws' : List KeyWrite) :
    v.applyAll (ws ++ ws') = (v.applyAll ws).applyAll ws' := List.foldl_append

end View

/-- what a load found, an error counting as nothing -/
def found {α : Type} : Except ContractError (Option α) → Option α
  | .ok r => r
  | .error _ => none

theorem found_eq_some {α : Type} {r : Except ContractError (Option α)} {a : α} (h : found r = some a) :
    r = .ok (some a) := by
  cases r with
  | error e => cases h
  | ok x => rw [← h]; rfl

/-- once there, the pointer is only ever replaced -/
theorem View.latest_kept {v : View} (hv : v.latest ≠ none) (ws : List KeyWrite) : (v.applyAll ws).latest ≠ none := by
  induction ws generalizing v with
  | nil => exact hv
  | cons w ws ih =>
    refine ih (v := v.apply w) ?_
    cases w with
    | block x bytes => exact hv
    | snapshot x bytes => exact hv
    | latest x => exact Option.some_ne_none _

theorem View.latest_ne_none {v : View} {ws : List KeyWrite} {h : Hash} (hmem : KeyWrite.latest h ∈ ws) :
    (v.applyAll ws).latest ≠ none := by
  induction ws generalizing v with
  | nil => cases hmem
  | cons w ws ih =>
    rcases List.mem_cons.1 hmem with rfl | hmem
    · exact View.latest_kept (v := v.apply (.latest h)) (Option.some_ne_none _) ws
    · exact ih hmem

variable [Crypto]

/-- `load_block`, from what the store holds under the hash and for any decoder of blocks -/
def loadBlockWith (decode : List UInt8 → Option Block) (hash : Hash) :
    Except ContractError (Option (List UInt8)) → Except ContractError (Option Block)
  | .error e => .error e
  | .ok none => .ok none
  | .ok (some bytes) =>
    match decode bytes with
    | none => .error .storage
    | some block => if block.hash ≠ hash then .error .storage else .ok (some block)

theorem loadBlockWith_some {decode : List UInt8 → Option Block} {hash : Hash}
    {r : Except ContractError (Option (List UInt8))} {b : Block} :
    loadBlockWith decode hash r = .ok (some b) ↔ ∃ bytes, found r = some bytes ∧ decode bytes = some b ∧ b.hash = hash := by
  rcases r with e | _ | bytes
  · simp [loadBlockWith, found]
  · simp [loadBlockWith, found]
  · simp only [loadBlockWith, found, Option.some.injEq, exists_eq_left']
    cases hdecode : decode bytes with
    | none => simp
    | some x =>
      simp only [Option.some.injEq]
      constructor
      · intro h
        split_ifs at h with hh
        cases h
        exact ⟨rfl, not_not.1 hh⟩
      · rintro ⟨rfl, hh⟩
        rw [if_neg (not_not.2 hh)]

/-- the key writes of an action, in order -/
def NodeAction.keyWrites : NodeAction → List KeyWrite
  | .persistBlock block => [.block block.hash block.toPostcard]
  | .persistSnapshot blockHash stateBytes => [.snapshot blockHash stateBytes, .latest blockHash]
  | _ => []

/-! ## Backends -/

structure Backend where
  Store : Type
  Write : Type
  empty : Store
  apply : Store → Write → Store
  /-- the key writes of `save_block`, in order -/
  saveBlock : Store → Block → Except ContractError (List Write)
  /-- the key writes of `save_snapshot`, in order -/
  saveSnapshot : Store → Hash → List UInt8 → Except ContractError (List Write)
  loadBlockBytes : Store → Hash → Except ContractError (Option (List UInt8))
  loadSnapshot : Store → Hash → Except ContractError (Option (List UInt8))
  /-- the bytes under the key of the latest snapshot -/
  latest : Store → Option (List UInt8)
  loadLatestSnapshotBundle : Store → Except ContractError (Option (Block × List UInt8))
  blocks_empty : ∀ h, found (loadBlockBytes empty h) = none
  snapshots_empty : ∀ h, found (loadSnapshot empty h) = none
  latest_empty : latest empty = none
  saveBlock_ok : ∀ {σ b ws}, saveBlock σ b = .ok ws → ∃ w, ws = [w] ∧
    (∀ h, found (loadBlockBytes (apply σ w) h) =
      Function.update (fun h => found (loadBlockBytes σ h)) b.hash (some b.toPostcard) h) ∧
    (∀ h, found (loadSnapshot (apply σ w) h) = found (loadSnapshot σ h)) ∧ latest (apply σ w) = latest σ
  saveSnapshot_ok : ∀ {σ hash bytes ws}, saveSnapshot σ hash bytes = .ok ws → ∃ w w', ws = [w, w'] ∧
    ((∀ h, found (loadBlockBytes (apply σ w) h) = found (loadBlockBytes σ h)) ∧
      (∀ h, found (loadSnapshot (apply σ w) h) =
        Function.update (fun h => found (loadSnapshot σ h)) hash (some bytes) h) ∧ latest (apply σ w) = latest σ) ∧
    ((∀ h, found (loadBlockBytes (apply (apply σ w) w') h) = found (loadBlockBytes (apply σ w) h)) ∧
      (∀ h, found (loadSnapshot (apply (apply σ w) w') h) = found (loadSnapshot (apply σ w) h)) ∧
      latest (apply (apply σ w) w') = some hash.bytes)
  bundle_none : ∀ {σ}, latest σ = none → loadLatestSnapshotBundle σ = .ok none
  /-- a start returns the block and the snapshot of the pointer -/
  bundle_some : ∀ {σ b bytes}, loadLatestSnapshotBundle σ = .ok (some (b, bytes)) ↔
    latest σ = some b.hash.bytes ∧ (∃ blockBytes, found (loadBlockBytes σ b.hash) = some blockBytes ∧
      Block.fromPostcard blockBytes = some b) ∧ found (loadSnapshot σ b.hash) = some bytes

namespace Backend

variable (B : Backend)

def applyAll (σ : B.Store) (ws : List B.Write) : B.Store := ws.foldl B.apply σ

/-- the key writes of one command -/
def command (σ : B.Store) : NodeAction → Except ContractError (List B.Write)
  | .persistBlock block => B.saveBlock σ block
  | .persistSnapshot blockHash stateBytes => B.saveSnapshot σ blockHash stateBytes
  | _ => .ok []

/-- the key writes of a log; the first command that fails ends it -/
def writes : B.Store → List NodeAction → List B.Write
  | _, [] => []
  | σ, a :: log =>
    match B.command σ a with
    | .error _ => []
    | .ok ws => ws ++ writes (B.applyAll σ ws) log

/-- the store after every command of the log was carried out -/
def execute : B.Store → List NodeAction → Except ContractError B.Store
  | σ, [] => .ok σ
  | σ, a :: log =>
    match B.command σ a with
    | .error e => .error e
    | .ok ws => execute (B.applyAll σ ws) log

/-- some `save_snapshot` of the log was carried out within the first `n` key writes -/
def SnapshotSaved (σ : B.Store) (log : List NodeAction) (n : ℕ) : Prop :=
  ∃ acts hash bytes σ', acts ++ [.persistSnapshot hash bytes] <+: log ∧
    B.execute σ (acts ++ [.persistSnapshot hash bytes]) = .ok σ' ∧
    (B.writes σ (acts ++ [.persistSnapshot hash bytes])).length ≤ n

def view (σ : B.Store) : View := ⟨fun h => found (B.loadBlockBytes σ h), fun h => found (B.loadSnapshot σ h), B.latest σ⟩

theorem view_empty : B.view B.empty = View.empty := by
  unfold view View.empty
  rw [B.latest_empty]
  congr 1
  · exact funext B.blocks_empty
  · exact funext B.snapshots_empty

variable {B}

/-! ## A backend's writes are the view's writes -/

/-- a command's writes go one for one -/
theorem command_view {σ : B.Store} {a : NodeAction} {ws : List B.Write} (h : B.command σ a = .ok ws) :
    ws.length = a.keyWrites.length ∧
      ∀ n, B.view (B.applyAll σ (ws.take n)) = (B.view σ).applyAll (a.keyWrites.take n) := by
  cases a with
  | persistBlock b =>
    obtain ⟨w, rfl, hb, hs, hl⟩ := B.saveBlock_ok h
    refine ⟨rfl, fun n => ?_⟩
    cases n with
    | zero => rfl
    | succ n =>
      simp only [List.take_succ_cons, List.take_nil, applyAll, NodeAction.keyWrites, View.applyAll, List.foldl_cons,
        List.foldl_nil, View.apply, view, hl]
      congr 1
      · exact funext hb
      · exact funext hs
  | persistSnapshot hash bytes =>
    obtain ⟨w, w', rfl, ⟨hb, hs, hl⟩, hb', hs', hl'⟩ := B.saveSnapshot_ok h
    have hfirst : B.view (B.apply σ w) = (B.view σ).apply (.snapshot hash bytes) := by
      simp only [View.apply, view, hl]
      congr 1
      · exact funext hb
      · exact funext hs
    have hsecond : B.view (B.apply (B.apply σ w) w') = (B.view (B.apply σ w)).apply (.latest hash) := by
      simp only [View.apply, view, hl']
      congr 1
      · exact funext hb'
      · exact funext hs'
    refine ⟨rfl, fun n => ?_⟩
    match n with
    | 0 => rfl
    | 1 => exact hfirst
    | n + 2 =>
      simp only [List.take_succ_cons, List.take_nil, applyAll, NodeAction.keyWrites, View.applyAll, List.foldl_cons,
        List.foldl_nil]
      rw [hsecond, hfirst]
  | sendFrame _ _ | broadcastFrame _ | requestBlocks _ _ _ | scheduleWake _ | cancelWake | reportEvent _
  | frameReceived _ | persistCompleted _ | loadSnapshot _ =>
    cases h
    exact ⟨rfl, fun n => by simp [applyAll, NodeAction.keyWrites, View.applyAll]⟩

theorem command_view_all {σ : B.Store} {a : NodeAction} {ws : List B.Write} (h : B.command σ a = .ok ws) :
    B.view (B.applyAll σ ws) = (B.view σ).applyAll a.keyWrites := by
  obtain ⟨hlen, hview⟩ := command_view h
  have hall := hview ws.length
  rwa [List.take_length, hlen, List.take_length] at hall

/-- every crash point of a log is the same crash point of the view's writes -/
theorem crash_view {σ : B.Store} {log : List NodeAction} {ws : List B.Write} (h : ws <+: B.writes σ log) :
    ws.length ≤ (log.flatMap NodeAction.keyWrites).length ∧
      B.view (B.applyAll σ ws) = (B.view σ).applyAll ((log.flatMap NodeAction.keyWrites).take ws.length) := by
  induction log generalizing σ ws with
  | nil =>
    rw [List.prefix_nil.1 h]
    exact ⟨le_rfl, rfl⟩
  | cons a log ih =>
    rw [writes] at h
    rw [List.flatMap_cons]
    split at h
    · rw [List.prefix_nil.1 h]
      exact ⟨Nat.zero_le _, rfl⟩
    · rename_i cws hcmd
      obtain ⟨hlen, hview⟩ := command_view hcmd
      by_cases hshort : ws.length ≤ cws.length
      · -- the crash is inside this command
        have hws : ws = cws.take ws.length :=
          List.prefix_iff_eq_take.1 (List.prefix_of_prefix_length_le h (List.prefix_append _ _) hshort)
        have hpart := hview ws.length
        rw [← hws] at hpart
        refine ⟨?_, ?_⟩
        · rw [List.length_append]
          omega
        · rw [hpart, List.take_append_of_le_length (hlen ▸ hshort)]
      · obtain ⟨rest, rfl⟩ : cws <+: ws :=
          List.prefix_of_prefix_length_le (List.prefix_append _ _) h (Nat.le_of_not_le hshort)
        obtain ⟨hle, hrest⟩ := ih ((List.prefix_append_right_inj cws).1 h)
        refine ⟨?_, ?_⟩
        · rw [List.length_append, List.length_append]
          omega
        · have hsplit : B.applyAll σ (cws ++ rest) = B.applyAll (B.applyAll σ cws) rest := List.foldl_append
          rw [hsplit, hrest, command_view_all hcmd, List.length_append, hlen, List.take_length_add_append,
            View.applyAll_append]

theorem execute_view {σ σ' : B.Store} {log : List NodeAction} (h : B.execute σ log = .ok σ') :
    B.view σ' = (B.view σ).applyAll (log.flatMap NodeAction.keyWrites) ∧
      (B.writes σ log).length = (log.flatMap NodeAction.keyWrites).length := by
  induction log generalizing σ with
  | nil => cases h; exact ⟨rfl, rfl⟩
  | cons a log ih =>
    rw [execute] at h
    rw [writes]
    cases hcmd : B.command σ a with
    | error e => rw [hcmd] at h; cases h
    | ok ws =>
      rw [hcmd] at h
      obtain ⟨hview, hlen⟩ := ih h
      refine ⟨?_, ?_⟩
      · rw [hview, command_view_all hcmd, List.flatMap_cons, View.applyAll_append]
      · rw [List.flatMap_cons, List.length_append, List.length_append, hlen, (command_view hcmd).1]

end Backend

/-- a completed `save_snapshot` leaves a pointer -/
theorem Backend.SnapshotSaved.latest {B : Backend} {σ : B.Store} {log : List NodeAction} {ws : List B.Write}
    (hws : ws <+: B.writes σ log) (h : B.SnapshotSaved σ log ws.length) : B.latest (B.applyAll σ ws) ≠ none := by
  obtain ⟨acts, hash, bytes, σ', ⟨rest, rfl⟩, hexec, hlen⟩ := h
  have hmem : KeyWrite.latest hash ∈ (acts ++ [NodeAction.persistSnapshot hash bytes]).flatMap NodeAction.keyWrites :=
    List.mem_flatMap.2 ⟨.persistSnapshot hash bytes, by simp, by simp [NodeAction.keyWrites]⟩
  have hview := (crash_view hws).2
  rw [(execute_view hexec).2] at hlen
  rw [List.flatMap_append, List.take_append, List.take_of_length_le hlen] at hview
  have hne : (B.view (B.applyAll σ ws)).latest ≠ none := by
    rw [hview]
    exact View.latest_ne_none (List.mem_append_left _ hmem)
  exact hne

end RustProof
