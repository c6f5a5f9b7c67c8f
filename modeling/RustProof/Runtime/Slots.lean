/-
Slots of the peer registry and the workers that hold them (erp-runtime).

A worker has a slot and a command channel from its spawn until the network manager takes its `Closed`. What it sends to the
network manager arrives in order: nothing, then `Ready`, then `Closed`; the node of its slot is set when `Ready` is taken.
`Phase` lists the combinations of the worker's stage, the node of its slot and what was not taken yet.

`Slots` says this of all workers, and has one lemma for each thing that changes it: `spawn`, `work` (a worker goes on),
`ready` and `closed` (the network manager takes a session event).
-/
import RustProof.Runtime.Registry

namespace RustProof

namespace Erp

/-! ## Stages of a worker -/

inductive WorkerStage where
  | handshaking
  /-- `run_established_session`; in `wait_for_sync_response`, with the commands it has put aside -/
  | established (peer : VerifiedPeer) (retained : Option (List SessionCommand))
  /-- `Closed` was sent; the command channel is open until the worker returns -/
  | ended (nodePeerId : Option PeerId) (receiving : Bool)

namespace WorkerStage

/-- `remote_node_peer_opt` -/
def node : WorkerStage → Option PeerId
  | .handshaking => none
  | .established peer _ => some peer.nodePeerId
  | .ended nodePeerId _ => nodePeerId

def live : WorkerStage → Bool
  | .ended _ _ => false
  | _ => true

def receiving : WorkerStage → Bool
  | .ended _ receiving => receiving
  | _ => true

end WorkerStage

/-- from a stage to the next, with what goes to the network manager -/
inductive Advance (id : SessionId) : WorkerStage → WorkerStage → List SessionEvent → Prop
  | ready (peer : VerifiedPeer) : Advance id .handshaking (.established peer none) [.ready id peer]
  | work (peer : VerifiedPeer) (retained retained' : Option (List SessionCommand)) :
    Advance id (.established peer retained) (.established peer retained') []
  | finish {stage : WorkerStage} (live : stage.live = true) :
    Advance id stage (.ended stage.node true) [.closed id stage.node]
  | drop (nodePeerId : Option PeerId) : Advance id (.ended nodePeerId true) (.ended nodePeerId false) []

theorem Advance.node {id : SessionId} {stage stage' : WorkerStage} {sent : List SessionEvent}
    (h : Advance id stage stage' sent) {n : PeerId} (hn : stage.node = some n) : stage'.node = some n := by
  cases h with
  | ready => exact nomatch hn
  | work | finish | drop => exact hn

/-! ## Phases -/

/-- what a worker has sent to the network manager and is not taken -/
def pending (w : WorkerId) (events : List (WorkerId × SessionEvent)) : List SessionEvent :=
  (events.filter fun e => e.1 = w).map Prod.snd

/-- how far a session is: its worker's stage, the node of its slot, and what is not taken -/
inductive Phase (id : SessionId) : WorkerStage → Option PeerId → List SessionEvent → Prop
  | handshaking : Phase id .handshaking none []
  | announced (peer : VerifiedPeer) (retained : Option (List SessionCommand)) :
    Phase id (.established peer retained) none [.ready id peer]
  | registered (peer : VerifiedPeer) (retained : Option (List SessionCommand)) :
    Phase id (.established peer retained) (some peer.nodePeerId) []
  | closing (nodePeerId : Option PeerId) (receiving : Bool) :
    Phase id (.ended nodePeerId receiving) nodePeerId [.closed id nodePeerId]
  | announcedClosing (peer : VerifiedPeer) (receiving : Bool) :
    Phase id (.ended (some peer.nodePeerId) receiving) none [.ready id peer, .closed id (some peer.nodePeerId)]

theorem Phase.advance {id : SessionId} {stage stage' : WorkerStage} {node : Option PeerId} {events sent : List SessionEvent}
    (h : Phase id stage node events) (ha : Advance id stage stage' sent) : Phase id stage' node (events ++ sent) := by
  cases ha with
  | ready peer =>
    cases h
    exact .announced peer none
  | work peer _ retained' =>
    cases h with
    | announced => exact .announced peer retained'
    | registered => exact .registered peer retained'
  | finish live =>
    cases h with
    | handshaking => exact .closing none true
    | announced peer => exact .announcedClosing peer true
    | registered peer => exact .closing (some peer.nodePeerId) true
    | closing | announcedClosing => exact nomatch live
  | drop =>
    rw [List.append_nil]
    cases h with
    | closing => exact .closing _ false
    | announcedClosing peer => exact .announcedClosing peer false

/-- taking `Ready` registers the node -/
theorem Phase.ready {id id' : SessionId} {stage : WorkerStage} {node : Option PeerId} {peer : VerifiedPeer}
    {events : List SessionEvent} (h : Phase id stage node (.ready id' peer :: events)) :
    id = id' ∧ node = none ∧ Phase id stage (some peer.nodePeerId) events := by
  cases h with
  | announced _ retained => exact ⟨rfl, rfl, .registered peer retained⟩
  | announcedClosing _ receiving => exact ⟨rfl, rfl, .closing _ receiving⟩

/-- `Closed` is the last -/
theorem Phase.closed {id id' : SessionId} {stage : WorkerStage} {node node' : Option PeerId} {events : List SessionEvent}
    (h : Phase id stage node (.closed id' node' :: events)) :
    id = id' ∧ (∃ receiving, stage = .ended node' receiving) ∧ events = [] := by
  cases h with
  | closing _ receiving => exact ⟨rfl, ⟨receiving, rfl⟩, rfl⟩

/-! ## Slots -/

section Slots

variable {peers peers' : PeerRegistry} {sessionCommands : BTreeMap SessionId WorkerId}
  {worker : WorkerId → Option (SessionId × WorkerStage)} {events : List (WorkerId × SessionEvent)}

/-- a worker that has its slot and its command channel -/
def Held (peers : PeerRegistry) (sessionCommands : BTreeMap SessionId WorkerId) (w : WorkerId) (id : SessionId)
    (stage : WorkerStage) (events : List SessionEvent) : Prop :=
  ∃ session, peers.get id = some session ∧ sessionCommands.get? id = some w ∧ Phase id stage session.nodePeerId events

/-- a worker whose `Closed` was taken -/
def Released (sessionCommands : BTreeMap SessionId WorkerId) (w : WorkerId) (stage : WorkerStage)
    (events : List SessionEvent) : Prop :=
  (∀ id, sessionCommands.get? id ≠ some w) ∧ (∃ node receiving, stage = .ended node receiving) ∧ events = []

structure Slots (peers : PeerRegistry) (sessionCommands : BTreeMap SessionId WorkerId)
    (worker : WorkerId → Option (SessionId × WorkerStage)) (events : List (WorkerId × SessionEvent)) : Prop where
  consistent : peers.Consistent
  slot : ∀ w id stage, worker w = some (id, stage) →
    Held peers sessionCommands w id stage (pending w events) ∨ Released sessionCommands w stage (pending w events)
  known : ∀ e ∈ events, ∃ s, worker e.1 = some s
  channel : ∀ id w, sessionCommands.get? id = some w → ∃ stage, worker w = some (id, stage)

theorem pending_cons (w w' : WorkerId) (event : SessionEvent) (events : List (WorkerId × SessionEvent)) :
    pending w' ((w, event) :: events) = if w = w' then event :: pending w' events else pending w' events := by
  rw [pending, List.filter_cons]
  by_cases h : w = w'
  · rw [if_pos h, if_pos (by simpa using h)]
    rfl
  · rw [if_neg h, if_neg (by simpa using h)]
    rfl

theorem pending_append (w w' : WorkerId) (events : List (WorkerId × SessionEvent)) (sent : List SessionEvent) :
    pending w' (events ++ sent.map fun e => (w, e)) = if w' = w then pending w' events ++ sent else pending w' events := by
  rw [pending, List.filter_append, List.map_append]
  by_cases h : w' = w
  · have hall : (sent.map fun e => (w, e)).filter (fun e => e.1 = w') = sent.map fun e => (w, e) :=
      List.filter_eq_self.2 (List.forall_mem_map.2 fun _ _ => decide_eq_true h.symm)
    rw [if_pos h, hall, List.map_map]
    exact congrArg (pending w' events ++ ·) (List.map_id sent)
  · have hnone : (sent.map fun e => (w, e)).filter (fun e => e.1 = w') = [] :=
      List.filter_eq_nil_iff.2 (List.forall_mem_map.2 fun _ _ => by simpa using Ne.symm h)
    rw [if_neg h, hnone]
    exact List.append_nil _

namespace Slots

theorem start (maxPeers : ℕ) : Slots (.new maxPeers) .empty (fun _ => none) [] where
  consistent := PeerRegistry.consistent_new maxPeers
  slot := nofun
  known := nofun
  channel := nofun

/-- what is not taken yet belongs to the worker that holds its slot -/
theorem held_of_event (h : Slots peers sessionCommands worker events) {e : WorkerId × SessionEvent} (he : e ∈ events) :
    ∃ id stage, worker e.1 = some (id, stage) ∧ Held peers sessionCommands e.1 id stage (pending e.1 events) := by
  obtain ⟨⟨id, stage⟩, hstage⟩ := h.known e he
  refine ⟨id, stage, hstage, (h.slot e.1 id stage hstage).resolve_right fun hreleased => ?_⟩
  have hmem : e.2 ∈ pending e.1 events := List.mem_map.2 ⟨e, List.mem_filter.2 ⟨he, decide_eq_true rfl⟩, rfl⟩
  rw [hreleased.2.2] at hmem
  exact nomatch hmem

/-- an established session has its slot, and the node of the slot is set exactly if `Ready` was taken -/
theorem established (h : Slots peers sessionCommands worker events) {w : WorkerId} {id : SessionId} {peer : VerifiedPeer}
    {retained : Option (List SessionCommand)} (hw : worker w = some (id, .established peer retained)) :
    ∃ session, peers.get id = some session ∧ sessionCommands.get? id = some w ∧
      (session.nodePeerId = none ∧ pending w events ≠ [] ∨
        session.nodePeerId = some peer.nodePeerId ∧ pending w events = []) := by
  rcases h.slot w _ _ hw with ⟨session, hs, hchannel, hphase⟩ | ⟨-, ⟨node, receiving, hended⟩, -⟩
  · refine ⟨session, hs, hchannel, ?_⟩
    generalize session.nodePeerId = node at hphase ⊢
    generalize pending w events = more at hphase ⊢
    cases hphase with
    | announced => exact .inl ⟨rfl, nofun⟩
    | registered => exact .inr ⟨rfl, rfl⟩
  · exact nomatch hended

theorem pending_unknown (h : Slots peers sessionCommands worker events) {w : WorkerId} (hw : worker w = none) :
    pending w events = [] := by
  rw [pending, List.filter_eq_nil_iff.2 fun e he => ?_]
  · rfl
  · obtain ⟨s, hs⟩ := h.known e he
    intro heq
    rw [of_decide_eq_true heq, hw] at hs
    exact nomatch hs

theorem spawn (h : Slots peers sessionCommands worker events) {transportPeerId : List UInt8} {isOutbound : Bool}
    {outboundAddr : Option SocketAddr} {id : SessionId} {w : WorkerId}
    (halloc : PeerRegistry.Allocated peers transportPeerId isOutbound outboundAddr peers' id) (hw : worker w = none) :
    Slots peers' (sessionCommands.insert id w) (fun w' => if w' = w then some (id, .handshaking) else worker w') events := by
  have hother {w' : WorkerId} {s : SessionId × WorkerStage} (hs : worker w' = some s) : w' ≠ w := by
    rintro rfl
    exact nomatch hw.symm.trans hs
  refine ⟨h.consistent.alloc halloc, fun w' id' stage hstage => ?_, fun e he => ?_, fun id' w' hchannel => ?_⟩
  · split_ifs at hstage with heq
    · -- the new worker
      cases hstage
      refine .inl ⟨_, (halloc.get _).trans (if_pos rfl), ?_, ?_⟩
      · rw [heq]
        exact BTreeMap.get?_insert_self _ _ _
      · rw [heq, h.pending_unknown hw]
        exact .handshaking
    · rcases h.slot w' id' stage hstage with ⟨session, hs, hchannel, hphase⟩ | ⟨hnone, hended⟩
      · have hne : id' ≠ id := fun heq' => nomatch (heq' ▸ halloc.free).symm.trans hs
        refine .inl ⟨session, ?_, ?_, hphase⟩
        · rw [halloc.get, if_neg hne, hs]
        · rw [BTreeMap.get?_insert_ne _ _ hne.symm, hchannel]
      · refine .inr ⟨fun id'' hchannel => ?_, hended⟩
        rw [BTreeMap.get?_insert] at hchannel
        split_ifs at hchannel with hid
        · exact heq (Option.some.inj hchannel).symm
        · exact hnone id'' hchannel
  · obtain ⟨s, hs⟩ := h.known e he
    exact ⟨s, (if_neg (hother hs)).trans hs⟩
  · rw [BTreeMap.get?_insert] at hchannel
    split_ifs at hchannel with hid
    · exact ⟨.handshaking, by rw [if_pos (Option.some.inj hchannel).symm, hid]⟩
    · obtain ⟨stage, hstage⟩ := h.channel id' w' hchannel
      exact ⟨stage, (if_neg (hother hstage)).trans hstage⟩

theorem work (h : Slots peers sessionCommands worker events) {w : WorkerId} {id : SessionId} {stage stage' : WorkerStage}
    {sent : List SessionEvent} (hw : worker w = some (id, stage)) (ha : Advance id stage stage' sent) :
    Slots peers sessionCommands (fun w' => if w' = w then some (id, stage') else worker w')
      (events ++ sent.map fun e => (w, e)) := by
  refine ⟨h.consistent, fun w' id' stage'' hstage => ?_, fun e he => ?_, fun id' w' hchannel => ?_⟩
  · rw [pending_append]
    split_ifs at hstage ⊢ with heq
    · cases hstage
      rw [heq]
      rcases h.slot w id stage hw with ⟨session, hs, hchannel, hphase⟩ | ⟨hnone, ⟨node, receiving, rfl⟩, hempty⟩
      · exact .inl ⟨session, hs, hchannel, hphase.advance ha⟩
      · cases ha with
        | finish live => exact nomatch live
        | drop => exact .inr ⟨hnone, ⟨node, false, rfl⟩, by rw [hempty]; rfl⟩
    · exact h.slot w' id' stage'' hstage
  · split_ifs with heq
    · exact ⟨_, rfl⟩
    · rcases List.mem_append.1 he with he | he
      · exact h.known e he
      · obtain ⟨event, -, rfl⟩ := List.mem_map.1 he
        exact absurd rfl heq
  · obtain ⟨stage'', hstage⟩ := h.channel id' w' hchannel
    split_ifs with heq
    · rw [heq, hw] at hstage
      cases hstage
      exact ⟨stage', rfl⟩
    · exact ⟨stage'', hstage⟩

/-- the next event of a worker that holds its slot -/
theorem held_of_head {w : WorkerId} {event : SessionEvent} {rest : List (WorkerId × SessionEvent)}
    (h : Slots peers sessionCommands worker ((w, event) :: rest)) :
    ∃ id stage session, worker w = some (id, stage) ∧ peers.get id = some session ∧ sessionCommands.get? id = some w ∧
      Phase id stage session.nodePeerId (event :: pending w rest) := by
  obtain ⟨id, stage, hw, session, hs, hchannel, hphase⟩ := h.held_of_event List.mem_cons_self
  rw [pending_cons, if_pos rfl] at hphase
  exact ⟨id, stage, session, hw, hs, hchannel, hphase⟩

/-- the next event is that of worker `w`: what the other workers hold does not depend on it, and is in other slots -/
theorem slot_of_other {w w' : WorkerId} {id id' : SessionId} {stage : WorkerStage} {event : SessionEvent}
    {rest : List (WorkerId × SessionEvent)} (h : Slots peers sessionCommands worker ((w, event) :: rest)) (hne : w ≠ w')
    (hchannel : sessionCommands.get? id = some w) (hstage : worker w' = some (id', stage)) :
    (id' ≠ id ∧ Held peers sessionCommands w' id' stage (pending w' rest)) ∨
      Released sessionCommands w' stage (pending w' rest) := by
  have hslot := h.slot w' id' stage hstage
  rw [pending_cons, if_neg hne] at hslot
  refine hslot.imp_left fun hheld => ⟨?_, hheld⟩
  rintro rfl
  obtain ⟨-, -, hchannel', -⟩ := hheld
  exact hne (Option.some.inj (hchannel.symm.trans hchannel'))

/-- the session of a `Ready` has a slot without a node -/
theorem ready_head {w : WorkerId} {id : SessionId} {peer : VerifiedPeer} {rest : List (WorkerId × SessionEvent)}
    (h : Slots peers sessionCommands worker ((w, .ready id peer) :: rest)) :
    ∃ session, peers.get id = some session ∧ session.nodePeerId = none := by
  obtain ⟨id', stage, session, -, hs, -, hphase⟩ := h.held_of_head
  obtain ⟨rfl, hnode, -⟩ := hphase.ready
  exact ⟨session, hs, hnode⟩

theorem ready {w : WorkerId} {id : SessionId} {peer : VerifiedPeer} {rest : List (WorkerId × SessionEvent)}
    (h : Slots peers sessionCommands worker ((w, .ready id peer) :: rest)) (hconsistent : peers'.Consistent)
    {session' : PeerSession} (hnode : session'.nodePeerId = some peer.nodePeerId)
    (hget : ∀ other, peers'.get other = if other = id then some session' else peers.get other) :
    Slots peers' sessionCommands worker rest := by
  obtain ⟨id₀, stage₀, session, hw, hs, hchannel, hphase⟩ := h.held_of_head
  obtain ⟨rfl, -, hphase⟩ := hphase.ready
  refine ⟨hconsistent, fun w' id' stage hstage => ?_, fun e he => h.known e (List.mem_cons_of_mem _ he), h.channel⟩
  by_cases heq : w = w'
  · rw [← heq] at hstage ⊢
    obtain ⟨rfl, rfl⟩ := Prod.mk.inj (Option.some.inj (hw.symm.trans hstage))
    exact .inl ⟨session', (hget id₀).trans (if_pos rfl), hchannel, hnode ▸ hphase⟩
  · rcases h.slot_of_other heq hchannel hstage with ⟨hne, session'', hs'', hchannel'', hphase''⟩ | hreleased
    · exact .inl ⟨session'', (hget id').trans ((if_neg hne).trans hs''), hchannel'', hphase''⟩
    · exact .inr hreleased

theorem closed {w : WorkerId} {id : SessionId} {node : Option PeerId} {rest : List (WorkerId × SessionEvent)}
    (h : Slots peers sessionCommands worker ((w, .closed id node) :: rest)) :
    Slots (peers.remove id) (sessionCommands.remove id) worker rest := by
  obtain ⟨id₀, stage₀, session, hw, hs, hchannel, hphase⟩ := h.held_of_head
  obtain ⟨rfl, ⟨receiving, rfl⟩, hempty⟩ := hphase.closed
  have hremoved {id' : SessionId} {w' : WorkerId} (hchannel' : (sessionCommands.remove id₀).get? id' = some w') :
      sessionCommands.get? id' = some w' ∧ w' ≠ w := by
    rw [BTreeMap.get?_remove] at hchannel'
    split_ifs at hchannel' with hid
    refine ⟨hchannel', ?_⟩
    rintro rfl
    obtain ⟨stage, hstage⟩ := h.channel id' w' hchannel'
    exact hid (Prod.mk.inj (Option.some.inj (hw.symm.trans hstage))).1
  refine ⟨h.consistent.remove id₀, fun w' id' stage hstage => ?_, fun e he => h.known e (List.mem_cons_of_mem _ he),
    fun id' w' hchannel' => h.channel id' w' (hremoved hchannel').1⟩
  by_cases heq : w = w'
  · rw [← heq] at hstage ⊢
    obtain ⟨rfl, rfl⟩ := Prod.mk.inj (Option.some.inj (hw.symm.trans hstage))
    exact .inr ⟨fun id' hchannel' => (hremoved hchannel').2 rfl, ⟨node, receiving, rfl⟩, hempty⟩
  · rcases h.slot_of_other heq hchannel hstage with ⟨hne, session'', hs'', hchannel'', hphase''⟩ | hreleased
    · refine .inl ⟨session'', ?_, ?_, hphase''⟩
      · rw [PeerRegistry.get_remove, if_neg hne, hs'']
      · rw [BTreeMap.get?_remove_ne _ hne.symm, hchannel'']
    · exact .inr ⟨fun id' hchannel' => hreleased.1 id' (hremoved hchannel').1, hreleased.2⟩

end Slots

end Slots

end Erp

end RustProof
