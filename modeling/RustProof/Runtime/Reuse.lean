/-
The peer registry of erp-runtime over all sequences of calls (`erp-runtime/src/network/peer_registry.rs`).

A slot is given again once its session is removed, while a second map points from nodes into the slots. A session worker
sends `Ready` once, so `register_node_peer` is called at most once for each session (`RegistryRun.Once`); any call may
fail.

Results:
- `registry_stays_consistent`: in every state reached the slots are within the limit, a session's id is its slot, an
  allocation gets a free slot and fails only when all are taken, and the map by node lists exactly the live sessions with
  their nodes;
- `slot_forgets_peer`: once a slot was freed, it is not returned for a node until that node is registered for it again.
-/
import RustProof.Lib.Machine
import RustProof.Runtime.Registry

namespace RustProof

namespace Erp

namespace PeerRegistry

inductive Call where
  | alloc (transportPeerId : List UInt8) (isOutbound : Bool) (outboundAddr : Option SocketAddr)
  | registerNodePeer (id : SessionId) (nodePeerId : PeerId)
  | remove (id : SessionId)
deriving DecidableEq

/-- the live sessions -/
def live (r : PeerRegistry) : ℕ := r.sessions.countP Option.isSome

end PeerRegistry

/-- a registry, and the sessions that `register_node_peer` was called for -/
structure RegistryRun where
  registry : PeerRegistry
  called : Finset SessionId

namespace RegistryRun

open PeerRegistry

/-- a call that fails leaves the registry as it is -/
def exec (σ : RegistryRun) : Call → RegistryRun
  | .alloc transportPeerId isOutbound outboundAddr =>
    match σ.registry.alloc transportPeerId isOutbound outboundAddr with
    | .ok (registry, id) => ⟨registry, σ.called.erase id⟩
    | .error _ => σ
  | .registerNodePeer id nodePeerId =>
    match σ.registry.registerNodePeer id nodePeerId with
    | .ok registry => ⟨registry, insert id σ.called⟩
    | .error _ => ⟨σ.registry, insert id σ.called⟩
  | .remove id => ⟨σ.registry.remove id, σ.called.erase id⟩

def machine (maxPeers : ℕ) : Machine RegistryRun Call where
  init σ := σ = ⟨.new maxPeers, ∅⟩
  exec σ call := some (σ.exec call)

/-- a session that is live is registered at most once -/
def Once (σ : RegistryRun) (call : Call) : Prop :=
  match call with
  | .registerNodePeer id _ => (σ.registry.get id).isSome = true → id ∉ σ.called
  | _ => True

instance (σ : RegistryRun) (call : Call) : Decidable (Once σ call) := by
  unfold Once
  split <;> infer_instance

/-! ## The invariant -/

structure Inv (maxPeers : ℕ) (σ : RegistryRun) : Prop where
  limit : σ.registry.maxPeers = maxPeers
  slots : σ.registry.sessions.length ≤ maxPeers
  ids : ∀ id session, σ.registry.get id = some session → session.id = id
  consistent : σ.registry.Consistent
  called : ∀ id session, σ.registry.get id = some session → session.nodePeerId ≠ none → id ∈ σ.called

theorem alloc_slots {r r' : PeerRegistry} {id : SessionId} {transportPeerId : List UInt8} {isOutbound : Bool}
    {outboundAddr : Option SocketAddr} (h : r.alloc transportPeerId isOutbound outboundAddr = .ok (r', id))
    (hslots : r.sessions.length ≤ r.maxPeers) :
    r'.maxPeers = r.maxPeers ∧ r'.sessions.length ≤ r.maxPeers := by
  unfold alloc at h
  cases hfree : r.sessions.findIdx? Option.isNone with
  | some id =>
    simp only [hfree] at h
    cases h
    exact ⟨rfl, by simpa using hslots⟩
  | none =>
    simp only [hfree] at h
    split_ifs at h with hfull
    cases h
    simp only [List.length_append, List.length_singleton, true_and]
    omega

theorem registerNodePeer_slots {r r' : PeerRegistry} {id : SessionId} {n : PeerId}
    (h : r.registerNodePeer id n = .ok r') :
    r'.maxPeers = r.maxPeers ∧ r'.sessions.length = r.sessions.length := by
  unfold registerNodePeer at h
  split_ifs at h
  split at h
  · cases h
  · cases h
    exact ⟨rfl, List.length_set⟩

theorem remove_slots (r : PeerRegistry) (id : SessionId) :
    (r.remove id).maxPeers = r.maxPeers ∧ (r.remove id).sessions.length = r.sessions.length := by
  unfold PeerRegistry.remove
  split
  · exact ⟨rfl, rfl⟩
  · exact ⟨rfl, List.length_set⟩

theorem Inv.init (maxPeers : ℕ) : Inv maxPeers ⟨.new maxPeers, ∅⟩ := by
  refine ⟨rfl, Nat.zero_le _, ?_, consistent_new maxPeers, ?_⟩
  · intro id session h
    cases h
  · intro id session h
    cases h

theorem Inv.alloc {maxPeers : ℕ} {σ : RegistryRun} (h : Inv maxPeers σ) (transportPeerId : List UInt8)
    (isOutbound : Bool) (outboundAddr : Option SocketAddr) :
    Inv maxPeers (σ.exec (.alloc transportPeerId isOutbound outboundAddr)) := by
  simp only [exec]
  rcases σ.registry.alloc_spec transportPeerId isOutbound outboundAddr with ⟨r', id, hok, -, halloc⟩ | ⟨herror, -⟩
  · obtain ⟨hlimit, hslots⟩ := alloc_slots hok (h.limit.symm ▸ h.slots)
    rw [hok]
    refine ⟨hlimit.trans h.limit, h.limit ▸ hslots, ?_, h.consistent.alloc halloc, ?_⟩
    · intro other session hs
      simp only [halloc.get] at hs
      split_ifs at hs with heq
      · cases hs
        exact heq.symm
      · exact h.ids other session hs
    · intro other session hs hn
      simp only [halloc.get] at hs
      split_ifs at hs with heq
      · cases hs
        exact absurd rfl hn
      · exact Finset.mem_erase.2 ⟨heq, h.called other session hs hn⟩
  · rw [herror]
    exact h

theorem Inv.register {maxPeers : ℕ} {σ : RegistryRun} (h : Inv maxPeers σ) {id : SessionId} {n : PeerId}
    (honce : Once σ (.registerNodePeer id n)) : Inv maxPeers (σ.exec (.registerNodePeer id n)) := by
  -- a failing call leaves everything, apart from being counted
  have hfailed : Inv maxPeers ⟨σ.registry, insert id σ.called⟩ :=
    ⟨h.limit, h.slots, h.ids, h.consistent, fun other session hs hn =>
      Finset.mem_insert_of_mem (h.called other session hs hn)⟩
  simp only [exec]
  cases hs : σ.registry.get id with
  | none =>
    have herror : ∃ e, σ.registry.registerNodePeer id n = .error e := by
      unfold registerNodePeer
      rw [hs]
      split_ifs
      · exact ⟨_, rfl⟩
      · exact ⟨_, rfl⟩
    obtain ⟨e, he⟩ := herror
    rw [he]
    exact hfailed
  | some session =>
    have hfresh : id ∉ σ.called := honce (Option.isSome_of_eq_some hs)
    have hnone : session.nodePeerId = none := by
      by_contra hn
      exact hfresh (h.called id session hs hn)
    rcases registerNodePeer_spec h.consistent hs hnone n with ⟨-, r', hok, hconsistent, hget⟩ | ⟨-, herror⟩
    · obtain ⟨hlimit, hslots⟩ := registerNodePeer_slots hok
      rw [hok]
      refine ⟨hlimit.trans h.limit, hslots.trans_le h.slots, ?_, hconsistent, ?_⟩
      · intro other s hs'
        simp only [hget] at hs'
        split_ifs at hs' with heq
        · cases hs'
          rw [heq]
          exact h.ids id session hs
        · exact h.ids other s hs'
      · intro other s hs' hn
        simp only [hget] at hs'
        split_ifs at hs' with heq
        · exact Finset.mem_insert.2 (.inl heq)
        · exact Finset.mem_insert_of_mem (h.called other s hs' hn)
    · rw [herror]
      exact hfailed

theorem Inv.remove {maxPeers : ℕ} {σ : RegistryRun} (h : Inv maxPeers σ) (id : SessionId) :
    Inv maxPeers (σ.exec (.remove id)) := by
  obtain ⟨hlimit, hslots⟩ := remove_slots σ.registry id
  refine ⟨hlimit.trans h.limit, hslots.trans_le h.slots, ?_, h.consistent.remove id, ?_⟩
  · intro other session hs
    simp only [exec, get_remove] at hs
    split_ifs at hs
    exact h.ids other session hs
  · intro other session hs hn
    simp only [exec, get_remove] at hs
    split_ifs at hs with heq
    exact Finset.mem_erase.2 ⟨heq, h.called other session hs hn⟩

theorem Inv.step {maxPeers : ℕ} {σ σ' : RegistryRun} {call : Call} (h : Inv maxPeers σ) (honce : Once σ call)
    (hexec : (machine maxPeers).exec σ call = some σ') : Inv maxPeers σ' := by
  cases hexec
  cases call with
  | alloc transportPeerId isOutbound outboundAddr => exact h.alloc transportPeerId isOutbound outboundAddr
  | registerNodePeer id n => exact h.register honce
  | remove id => exact h.remove id

theorem reached_inv {maxPeers : ℕ} {σ : RegistryRun} (h : (machine maxPeers).Reached Once σ) : Inv maxPeers σ :=
  h.invariant (fun s hs => by cases hs; exact Inv.init maxPeers) fun _ _ _ hI hc he => hI.step hc he

/-! ## What follows -/

/-- no slot is left: all of them are live -/
theorem Inv.full {maxPeers : ℕ} {σ : RegistryRun} (h : Inv maxPeers σ) (hfull : ¬ σ.registry.HasRoom) :
    σ.registry.live = maxPeers := by
  obtain ⟨htaken, hlength⟩ := not_or.1 hfull
  have hall : ∀ s ∈ σ.registry.sessions, s.isSome = true := by
    intro s hs
    by_contra hnone
    rw [Bool.not_eq_true, Option.isSome_eq_false_iff, Option.isNone_iff_eq_none] at hnone
    exact htaken (hnone ▸ hs)
  rw [live, List.countP_eq_length.2 hall]
  have hslots := h.slots
  have hlimit := h.limit
  omega

/-- a call that does not register `n` for a slot does not make the slot `n`'s -/
theorem Inv.forgets {maxPeers : ℕ} {σ : RegistryRun} (h : Inv maxPeers σ) {id : SessionId} {n : PeerId} {call : Call}
    (hcall : call ≠ .registerNodePeer id n) (hn : σ.registry.sessionForNode n ≠ some id) :
    (σ.exec call).registry.sessionForNode n ≠ some id := by
  cases call with
  | alloc transportPeerId isOutbound outboundAddr =>
    simp only [exec]
    rcases σ.registry.alloc_spec transportPeerId isOutbound outboundAddr with ⟨r', id', hok, -, halloc⟩ | ⟨herror, -⟩
    · rw [hok]
      simp only [sessionForNode, halloc.byNodePeer]
      exact hn
    · rw [herror]
      exact hn
  | registerNodePeer id' n' =>
    simp only [exec]
    unfold registerNodePeer
    split_ifs with htaken
    · exact hn
    · cases hs : σ.registry.get id' with
      | none => exact hn
      | some session =>
        simp only [sessionForNode, BTreeMap.get?_insert]
        split_ifs with heq
        · intro hid
          cases hid
          exact hcall (by rw [heq])
        · exact hn
  | remove id' =>
    intro hid
    obtain ⟨session, hs, hnode⟩ := ((h.remove id').consistent n id).1 hid
    simp only [exec, get_remove] at hs
    split_ifs at hs
    exact hn ((h.consistent n id).2 ⟨session, hs, hnode⟩)

theorem Inv.replay_forgets {maxPeers : ℕ} {calls : List Call} {σ σ' : RegistryRun} (h : Inv maxPeers σ)
    {id : SessionId} {n : PeerId} (hn : σ.registry.sessionForNode n ≠ some id)
    (hrun : (machine maxPeers).replay Once calls σ = some σ') (hcalls : Call.registerNodePeer id n ∉ calls) :
    σ'.registry.sessionForNode n ≠ some id := by
  induction calls generalizing σ with
  | nil =>
    cases hrun
    exact hn
  | cons call calls ih =>
    rw [Machine.replay] at hrun
    split_ifs at hrun with honce
    obtain ⟨hne, hrest⟩ := not_or.1 (fun hc => hcalls (List.mem_cons.2 hc))
    exact ih (h.step honce rfl) (h.forgets (Ne.symm hne) hn) hrun hrest

/-- **Once a slot was freed, it is not returned for a node until that node is registered for it again.** -/
theorem slot_forgets_peer {maxPeers : ℕ} {σ σ' : RegistryRun} (h : Inv maxPeers σ) {id : SessionId} {n : PeerId}
    {calls : List Call} (hrun : (machine maxPeers).replay Once calls (σ.exec (.remove id)) = some σ')
    (hcalls : Call.registerNodePeer id n ∉ calls) : σ'.registry.sessionForNode n ≠ some id := by
  have hfreed : (σ.exec (.remove id)).registry.sessionForNode n ≠ some id := by
    intro hid
    obtain ⟨session, hs, -⟩ := ((h.remove id).consistent n id).1 hid
    simp only [exec, get_remove, if_true] at hs
    cases hs
  exact (h.remove id).replay_forgets hfreed hrun hcalls

/-- **The embedded peer registry stays consistent.** -/
theorem registry_stays_consistent {maxPeers : ℕ} {σ : RegistryRun} (h : (machine maxPeers).Reached Once σ) :
    σ.registry.sessions.length ≤ maxPeers ∧
    (∀ id session, σ.registry.get id = some session → session.id = id) ∧
    (∀ transportPeerId isOutbound outboundAddr registry id,
      σ.registry.alloc transportPeerId isOutbound outboundAddr = .ok (registry, id) → σ.registry.get id = none) ∧
    (∀ transportPeerId isOutbound outboundAddr e,
      σ.registry.alloc transportPeerId isOutbound outboundAddr = .error e → σ.registry.live = maxPeers) ∧
    (∀ n id, σ.registry.byNodePeer.get? n = some id ↔
      ∃ session, σ.registry.get id = some session ∧ session.nodePeerId = some n) ∧
    ∀ id n calls σ', (machine maxPeers).replay Once calls (σ.exec (.remove id)) = some σ' →
      Call.registerNodePeer id n ∉ calls → σ'.registry.sessionForNode n ≠ some id := by
  have hI := reached_inv h
  refine ⟨hI.slots, hI.ids, ?_, ?_, hI.consistent, fun id n calls σ' hrun hcalls => slot_forgets_peer hI hrun hcalls⟩
  · intro transportPeerId isOutbound outboundAddr registry id hok
    rcases σ.registry.alloc_spec transportPeerId isOutbound outboundAddr with ⟨r', id', hok', -, halloc⟩ | ⟨herror, -⟩
    · rw [hok'] at hok
      cases hok
      exact halloc.free
    · rw [herror] at hok
      cases hok
  · intro transportPeerId isOutbound outboundAddr e he
    rcases σ.registry.alloc_spec transportPeerId isOutbound outboundAddr with ⟨r', id', hok, -, -⟩ | ⟨-, hfull⟩
    · rw [hok] at he
      cases he
    · exact hI.full hfull

section Witness

/-- the node whose id is all `x` -/
def node (x : UInt8) : PeerId := ⟨List.replicate 32 x, List.length_replicate⟩

/-- `node 1` holds slot 0 and is refused in slot 1 -/
def takenCalls : List Call :=
  [.alloc [] false none, .registerNodePeer 0 (node 1), .alloc [] false none, .registerNodePeer 1 (node 1)]

/-- slot 0, once it is free, goes to `node 2` -/
def reusingCalls : List Call := [.alloc [] true none, .registerNodePeer 0 (node 2)]

def taken : RegistryRun := ((machine 2).replay Once takenCalls ⟨.new 2, ∅⟩).get (by decide +kernel)

theorem taken_reached : (machine 2).Reached Once taken :=
  Machine.Reached.of_replay (.start rfl) (Option.some_get _).symm

def reused : RegistryRun := ((machine 2).replay Once reusingCalls (taken.exec (.remove 0))).get (by decide +kernel)

theorem registry_stays_consistent_of_reused :
    reused.registry.sessionForNode (node 1) ≠ some 0 ∧ reused.registry.sessionForNode (node 2) = some 0 :=
  ⟨(registry_stays_consistent taken_reached).2.2.2.2.2 0 (node 1) reusingCalls reused (Option.some_get _).symm
    (by decide), by decide +kernel⟩

end Witness

end RegistryRun

end Erp

end RustProof
