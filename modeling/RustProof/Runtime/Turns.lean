/-
Whether two sessions wait for each other.

`Phase` says, for every stage of a request, where the other worker is and what is on the substream; every move of either
worker keeps it (`leads_exec`). So a worker that waits with nothing to read either has not been accepted or is being
served, and two workers that both wait have both not been accepted.

Results:
- `sessions_do_not_deadlock`: the two workers never both wait in a request with nothing to read, in runs in which no worker
  starts a request while the other waits in one that it has not accepted; and the first step of a run that breaks this
  rule is a deadlock;
- `Deadlocked.forever`: there is no way out;
- `both_ask_first`: both sides ask for blocks as soon as the session stands, as the engines do.
-/
import RustProof.Runtime.Session
import RustProof.Node.Sample

namespace RustProof

section Turns

variable [Crypto]

/-! ## Deadlock -/

namespace SessionWorker

/-- in a request, with nothing to read -/
def waits (w : SessionWorker) : Bool :=
  match w.task with
  | .dial _ _ i => (w.opened[i]?).any fun s => s.toDialer.isEmpty
  | _ => false

/-- `me` is in a request that `other` has not accepted -/
def calls (me other : SessionWorker) : Bool :=
  match me.task with
  | .dial _ _ i => decide (other.accepted ≤ i)
  | _ => false

end SessionWorker

/-- both workers wait in a request with nothing to read -/
def Deadlocked (σ : Pair) : Prop := σ.left.waits = true ∧ σ.right.waits = true

/-- `me` starts no request while `other` is in one that `me` has not accepted -/
def Yields (me other : SessionWorker) : WorkerMove → Prop
  | .command => me.asks = true → other.calls me = false
  | _ => True

/-- no request is started while the other worker is in one that is not yet accepted -/
def TakesTurns (σ : Pair) : Side × WorkerMove → Prop
  | (.left, move) => Yields σ.left σ.right move
  | (.right, move) => Yields σ.right σ.left move

theorem waits_iff {w : SessionWorker} :
    w.waits = true ↔ ∃ request stage i s, w.task = .dial request stage i ∧ w.opened[i]? = some s ∧ s.toDialer = [] := by
  unfold SessionWorker.waits
  constructor
  · intro h
    split at h
    · rename_i request stage i htask
      cases hs : w.opened[i]? with
      | none => rw [hs] at h; cases h
      | some s =>
        rw [hs, Option.any_some, List.isEmpty_iff] at h
        exact ⟨request, stage, i, s, htask, hs, h⟩
    · cases h
  · rintro ⟨request, stage, i, s, htask, hs, hempty⟩
    simp only [htask, hs, Option.any_some, hempty, List.isEmpty_nil]

theorem calls_iff {me other : SessionWorker} :
    me.calls other = true ↔ ∃ request stage i, me.task = .dial request stage i ∧ other.accepted ≤ i := by
  unfold SessionWorker.calls
  constructor
  · intro h
    split at h
    · rename_i request stage i htask
      exact ⟨request, stage, i, htask, of_decide_eq_true h⟩
    · cases h
  · rintro ⟨request, stage, i, htask, hle⟩
    simp only [htask, hle, decide_true]

/-- a worker that waits can only be sent commands, and the connection is open while the other waits -/
theorem exec_of_waits {me other me' other' : SessionWorker} {move : WorkerMove} (hme : me.waits = true)
    (hother : other.waits = true) (h : me.exec other move = some (me', other')) :
    me'.waits = true ∧ other' = other := by
  obtain ⟨request, stage, i, s, htask, hs, hempty⟩ := waits_iff.1 hme
  cases move with
  | push command =>
    cases h
    exact ⟨waits_iff.2 ⟨request, stage, i, s, htask, hs, hempty⟩, rfl⟩
  | command =>
    simp only [SessionWorker.exec, htask] at h
    cases h
  | accept =>
    simp only [SessionWorker.exec, htask] at h
    cases h
  | read =>
    obtain ⟨toListener, toDialer⟩ := s
    subst hempty
    simp only [SessionWorker.exec, htask, readAsDialer, hs, Option.map_none] at h
    cases h
  | closed =>
    simp only [SessionWorker.exec, htask] at h
    cases h
  | eof =>
    obtain ⟨request', stage', i', s', htask', -, -⟩ := waits_iff.1 hother
    simp only [SessionWorker.exec, htask, htask'] at h
    cases h

/-- **There is no way out.** Whatever the workers and their network managers do, a deadlock stays one. -/
theorem Deadlocked.forever {σ σ' : Pair} {move : Side × WorkerMove} (h : Deadlocked σ)
    (hexec : Pair.machine.exec σ move = some σ') : Deadlocked σ' := by
  obtain ⟨side, move⟩ := move
  cases side with
  | left =>
    obtain ⟨⟨me', other'⟩, hmove, rfl⟩ := Option.map_eq_some_iff.1 hexec
    obtain ⟨hme, rfl⟩ := exec_of_waits h.1 h.2 hmove
    exact ⟨hme, h.2⟩
  | right =>
    obtain ⟨⟨me', other'⟩, hmove, rfl⟩ := Option.map_eq_some_iff.1 hexec
    obtain ⟨hme, rfl⟩ := exec_of_waits h.2 h.1 hmove
    exact ⟨h.1, hme⟩

/-! ## One exchange, seen from both ends -/

/-- where the listener is, for every stage of the dialer of substream `i` and what is on the substream -/
inductive Phase (task : Task) (accepted : ℕ) (request : Request) (i : ℕ) : DialStage → Substream → Prop
  | unaccepted (before : accepted ≤ i) : Phase task accepted request i .header ⟨[.multistream], []⟩
  | accepted (located : task = .listen .header i) : Phase task accepted request i .header ⟨[.multistream], []⟩
  | greeted (located : task = .listen .protocol i) : Phase task accepted request i .header ⟨[], [.multistream]⟩
  | requested (located : task = .listen .protocol i) :
      Phase task accepted request i .selection ⟨[.protocol request.protocol], []⟩
  | selected (located : task = .listen (.request request.protocol) i) :
      Phase task accepted request i .selection ⟨[], [.protocol request.protocol]⟩
  | sent (located : task = .listen (.request request.protocol) i) :
      Phase task accepted request i .response ⟨[.payload request.payload], []⟩
  | serving (retained : List SessionCommand) (located : task = .serveSync i retained) :
      Phase task accepted request i .response ⟨[], []⟩
  | served (free : task.serves = none) (after : accepted = i + 1) (packet : Packet) :
      Phase task accepted request i .response ⟨[], [packet]⟩
  | ended (error : Option String) (located : task = .ended error) (stage : DialStage) (s : Substream) :
      Phase task accepted request i stage s

/-- the exchanges that `d` starts and `l` serves -/
structure Leads (d l : SessionWorker) : Prop where
  cursor : l.accepted ≤ d.opened.length
  /-- the last accepted substream is the one that is served -/
  last : ∀ i, l.task.serves = some i → i + 1 = l.accepted
  phase : ∀ request stage i, d.task = .dial request stage i →
    i + 1 = d.opened.length ∧ ∃ s, d.opened[i]? = some s ∧ Phase l.task l.accepted request i stage s

/-- a listener that serves another substream, or none, has not accepted this one, or is done with it -/
theorem Phase.of_not_serves {task task' : Task} {accepted : ℕ} {request : Request} {i : ℕ} {stage : DialStage}
    {s : Substream} (h : Phase task accepted request i stage s) (hnot : task.serves ≠ some i)
    (hrunning : ∀ error, task ≠ .ended error) (hfree : task.serves = none → task'.serves = none) :
    Phase task' accepted request i stage s := by
  cases h with
  | unaccepted before => exact .unaccepted before
  | accepted hat => exact absurd (congrArg Task.serves hat) hnot
  | greeted hat => exact absurd (congrArg Task.serves hat) hnot
  | requested hat => exact absurd (congrArg Task.serves hat) hnot
  | selected hat => exact absurd (congrArg Task.serves hat) hnot
  | sent hat => exact absurd (congrArg Task.serves hat) hnot
  | serving retained hat => exact absurd (congrArg Task.serves hat) hnot
  | served free after packet => exact .served (hfree free) after packet
  | ended error hat => exact absurd hat (hrunning error)

namespace Leads

variable {d d' l l' : SessionWorker}

/-- the dialer is not in a request: only the number of its substreams matters -/
theorem of_not_dial (h : Leads d l) (hlen : d'.opened.length = d.opened.length) (htask : l'.task = l.task)
    (haccepted : l'.accepted = l.accepted) (hnot : ∀ request stage i, d'.task ≠ .dial request stage i) : Leads d' l' := by
  refine ⟨?_, fun i hi => ?_, fun request stage i hdial => absurd hdial (hnot request stage i)⟩
  · rw [haccepted, hlen]
    exact h.cursor
  · rw [haccepted]
    rw [htask] at hi
    exact h.last i hi

/-- the listener goes on with something that is not serving -/
theorem of_free (h : Leads d l) (hfree : l.task.serves = none) (hrunning : ∀ error, l.task ≠ .ended error)
    (haccepted : l'.accepted = l.accepted) (hfree' : l'.task.serves = none) : Leads d l' := by
  refine ⟨haccepted ▸ h.cursor, fun i hi => ?_, fun request stage i hdial => ?_⟩
  · rw [hfree'] at hi
    cases hi
  · obtain ⟨hi, s, hs, hphase⟩ := h.phase request stage i hdial
    refine ⟨hi, s, hs, haccepted ▸ hphase.of_not_serves ?_ hrunning fun _ => hfree'⟩
    rw [hfree]
    exact fun hsome => nomatch hsome

/-- the listener ends -/
theorem of_ended (h : Leads d l) (hopened : d'.opened.length = d.opened.length) (htask : d'.task = d.task)
    (haccepted : l'.accepted = l.accepted) {error : Option String} (hended : l'.task = .ended error) : Leads d' l' := by
  refine ⟨?_, fun i hi => ?_, fun request stage i hdial => ?_⟩
  · rw [haccepted, hopened]
    exact h.cursor
  · rw [hended] at hi
    cases hi
  · obtain ⟨hi, s, hs, -⟩ := h.phase request stage i (htask ▸ hdial)
    have hlt : i < d'.opened.length := by omega
    exact ⟨by omega, d'.opened[i], List.getElem?_eq_getElem hlt, .ended error hended _ _⟩

/-- the listener, serving substream `i`, goes on with it or is done with it -/
theorem of_serves (h : Leads d l) {i : ℕ} (hserves : l.task.serves = some i) (haccepted : l'.accepted = l.accepted)
    (hserves' : ∀ k, l'.task.serves = some k → k = i) {opened : List Substream}
    (hlen : opened.length = d.opened.length) (hother : ∀ j, j ≠ i → opened[j]? = d.opened[j]?)
    (hown : ∀ request stage s, d.opened[i]? = some s → Phase l.task l.accepted request i stage s →
      ∃ s', opened[i]? = some s' ∧ Phase l'.task l.accepted request i stage s') :
    Leads { d with opened := opened } l' := by
  refine ⟨?_, fun k hk => ?_, fun request stage j hdial => ?_⟩
  · rw [haccepted]
    exact hlen ▸ h.cursor
  · rw [hserves' k hk, haccepted]
    exact h.last i hserves
  · obtain ⟨hj, s, hs, hphase⟩ := h.phase request stage j hdial
    refine ⟨hj.trans hlen.symm, ?_⟩
    by_cases hji : j = i
    · subst hji
      rw [haccepted]
      exact hown request stage s hs hphase
    · refine ⟨s, (hother j hji).trans hs, haccepted ▸ hphase.of_not_serves ?_ ?_ ?_⟩
      · rw [hserves]
        exact fun heq => hji (Option.some.inj heq).symm
      · intro error htask
        rw [htask] at hserves
        cases hserves
      · intro hnone
        rw [hserves] at hnone
        cases hnone

end Leads

/-! ## A step keeps both ends together -/

namespace Leads

variable {me me' other other' : SessionWorker}

theorem openSubstream (h : Leads me other) (request : Request) : Leads (me.openSubstream request) other := by
  refine ⟨?_, h.last, fun request' stage i hdial => ?_⟩
  · simp only [SessionWorker.openSubstream, List.length_append, List.length_singleton]
    exact Nat.le_succ_of_le h.cursor
  · cases hdial
    refine ⟨?_, ⟨[.multistream], []⟩, ?_, .unaccepted h.cursor⟩
    · simp only [SessionWorker.openSubstream, List.length_append, List.length_singleton]
    · exact List.getElem?_concat_length

/-- what the dialer reads was put there by the listener, so both go on -/
theorem dialRead (h : Leads me other) {request : Request} {stage : DialStage} {i : ℕ} {packet : Packet}
    {opened : List Substream} {reply : Option Packet} (htask : me.task = .dial request stage i)
    (hread : readAsDialer me.opened i = some (packet, opened))
    (hdial : me.dialRead request i stage packet = (me', reply)) :
    Leads { me' with opened := writeToListener opened i reply } other := by
  obtain ⟨hi, s, hs, hphase⟩ := h.phase request stage i htask
  obtain ⟨toListener, toDialer, hstream, rfl⟩ := readAsDialer_eq_some hread
  have hsame : s = ⟨toListener, packet :: toDialer⟩ := Option.some.inj (hs.symm.trans hstream)
  subst hsame
  have hlen : (writeToListener (me.opened.set i ⟨toListener, toDialer⟩) i reply).length = me.opened.length := by
    rw [length_writeToListener, List.length_set]
  have hnow : (writeToListener (me.opened.set i ⟨toListener, toDialer⟩) i reply)[i]? =
      some ⟨toListener ++ reply.toList, toDialer⟩ := getElem?_writeToListener (getElem?_set_of_some hs _) reply
  -- the request is over
  have hover : (∀ request' stage' j, me'.task ≠ .dial request' stage' j) →
      Leads { me' with opened := writeToListener (me.opened.set i ⟨toListener, toDialer⟩) i reply } other := by
    intro hnot
    exact h.of_not_dial hlen rfl rfl hnot
  -- or goes on
  have hnext : ∀ stage', me'.task = .dial request stage' i →
      Phase other.task other.accepted request i stage' ⟨toListener ++ reply.toList, toDialer⟩ →
      Leads { me' with opened := writeToListener (me.opened.set i ⟨toListener, toDialer⟩) i reply } other := by
    intro stage' hgoes hphase'
    refine ⟨hlen ▸ h.cursor, h.last, fun request'' stage'' j hj => ?_⟩
    cases hgoes.symm.trans hj
    exact ⟨hi.trans hlen.symm, _, hnow, hphase'⟩
  cases hphase with
  | greeted located =>
    cases hdial
    exact hnext _ rfl (.requested located)
  | selected located =>
    simp only [SessionWorker.dialRead, if_true] at hdial
    split_ifs at hdial
    · cases hdial
      exact hover fun _ _ _ hdial => by cases hdial
    · cases hdial
      exact hnext _ rfl (.sent located)
  | served free after => exact hover (dialRead_response hdial)
  | ended error located =>
    obtain ⟨-, -, ⟨stage', hgoes⟩ | hidle | ⟨error', hended⟩⟩ := dialRead_cases hdial
    · exact hnext stage' hgoes (.ended error located _ _)
    · exact hover fun _ _ _ hdial => by cases hidle.symm.trans hdial
    · exact hover fun _ _ _ hdial => by cases hended.symm.trans hdial

/-- what the listener reads was put there by the dialer, so both go on -/
theorem listenRead (h : Leads other me) {stage : ListenStage} {i : ℕ} {packet : Packet} {opened : List Substream}
    {reply : Option Packet} (htask : me.task = .listen stage i)
    (hread : readAsListener other.opened i = some (packet, opened))
    (hlisten : me.listenRead i stage packet = (me', reply)) :
    Leads { other with opened := writeToDialer opened i reply } me' := by
  obtain ⟨toListener, toDialer, hstream, rfl⟩ := readAsListener_eq_some hread
  obtain ⟨-, haccepted, hinbound⟩ := listenRead_inbound hlisten
  have hserves : me.task.serves = some i := by
    rw [htask]
    rfl
  have hlast := h.last i hserves
  have hnow : (writeToDialer (other.opened.set i ⟨toListener, toDialer⟩) i reply)[i]? =
      some ⟨toListener, toDialer ++ reply.toList⟩ := getElem?_writeToDialer (getElem?_set_of_some hstream _) reply
  refine h.of_serves hserves haccepted hinbound.2 ?_ (fun j hj => ?_) fun request dialStage s hs hphase => ?_
  · rw [length_writeToDialer, List.length_set]
  · rw [getElem?_writeToDialer_ne _ hj, List.getElem?_set_ne hj.symm]
  · have hsame : s = ⟨packet :: toListener, toDialer⟩ := Option.some.inj (hs.symm.trans hstream)
    subst hsame
    refine ⟨_, hnow, ?_⟩
    cases hphase with
    | unaccepted before => omega
    | accepted located =>
      cases htask.symm.trans located
      cases hlisten
      exact .greeted rfl
    | requested located =>
      cases htask.symm.trans located
      cases hlisten
      exact .selected rfl
    | sent located =>
      cases htask.symm.trans located
      obtain ⟨-, -, ⟨error, hended⟩ | ⟨hserving, rfl⟩ | ⟨hidle, response, rfl⟩⟩ := listenRead_request hlisten
      · exact .ended error hended _ _
      · exact .serving [] hserving
      · exact .served (by rw [hidle]; rfl) hlast.symm response
    | ended error located => cases htask.symm.trans located

/-- the engine's response ends the exchange on the listener's side -/
theorem waitForSyncResponse (h : Leads other me) {i : ℕ} {retained : List SessionCommand} {command : SessionCommand}
    {reply : Option Packet} (htask : me.task = .serveSync i retained)
    (hwait : me.waitForSyncResponse i retained command = (me', reply)) :
    Leads { other with opened := writeToDialer other.opened i reply } me' := by
  obtain ⟨-, haccepted, hcases⟩ := waitForSyncResponse_cases hwait
  obtain ⟨-, -, hinbound⟩ := waitForSyncResponse_inbound hwait
  have hserves : me.task.serves = some i := by
    rw [htask]
    rfl
  have hlast := h.last i hserves
  refine h.of_serves hserves haccepted hinbound.2 (length_writeToDialer _ _ _)
    (fun j hj => getElem?_writeToDialer_ne _ hj _) fun request stage s hs hphase => ?_
  refine ⟨_, getElem?_writeToDialer hs reply, ?_⟩
  cases hphase with
  | unaccepted before => omega
  | accepted located => cases htask.symm.trans located
  | greeted located => cases htask.symm.trans located
  | requested located => cases htask.symm.trans located
  | selected located => cases htask.symm.trans located
  | sent located => cases htask.symm.trans located
  | serving retained' located =>
    rcases hcases with ⟨error, hended⟩ | ⟨⟨retained'', hserving⟩, rfl⟩ | ⟨hidle, response, rfl⟩
    · exact .ended error hended _ _
    · exact .serving retained'' hserving
    · exact .served (by rw [hidle]; rfl) hlast.symm response
  | served free after packet =>
    rw [hserves] at free
    cases free
  | ended error located => cases htask.symm.trans located

/-- the next substream is accepted -/
theorem accept (h : Leads other me) (hidle : me.task = .idle) (hmore : me.accepted < other.opened.length) :
    Leads other { me with task := .listen .header me.accepted, accepted := me.accepted + 1 } := by
  refine ⟨hmore, fun i hi => ?_, fun request stage i hdial => ?_⟩
  · cases hi
    rfl
  · obtain ⟨hi, s, hs, hphase⟩ := h.phase request stage i hdial
    refine ⟨hi, s, hs, ?_⟩
    cases hphase with
    | unaccepted before =>
      rcases before.eq_or_lt with heq | hlt
      · exact .accepted (by rw [heq])
      · exact .unaccepted hlt
    | accepted located => cases hidle.symm.trans located
    | greeted located => cases hidle.symm.trans located
    | requested located => cases hidle.symm.trans located
    | selected located => cases hidle.symm.trans located
    | sent located => cases hidle.symm.trans located
    | serving retained located => cases hidle.symm.trans located
    | served free after packet => omega
    | ended error located => cases hidle.symm.trans located

/-- Leads is about tasks and substreams only -/
theorem of_same (h : Leads me other) (htask : me'.task = me.task) (hopened : me'.opened = me.opened)
    (htask' : other'.task = other.task) (haccepted : other'.accepted = other.accepted) : Leads me' other' := by
  refine ⟨?_, fun i hi => ?_, fun request stage i hdial => ?_⟩
  · rw [haccepted, hopened]
    exact h.cursor
  · rw [haccepted]
    exact h.last i (htask' ▸ hi)
  · rw [hopened, htask', haccepted]
    exact h.phase request stage i (htask ▸ hdial)

end Leads

section Step

variable {me me' other other' : SessionWorker} {move : WorkerMove}

/-- **A step keeps both ends together.** -/
theorem leads_exec (hme : Leads me other) (hother : Leads other me) (h : me.exec other move = some (me', other')) :
    Leads me' other' ∧ Leads other' me' := by
  cases exec_moved h with
  | stays htask hopened haccepted =>
    exact ⟨hme.of_same htask hopened rfl rfl, hother.of_same rfl rfl htask haccepted⟩
  | ends error htask hopened haccepted =>
    refine ⟨hme.of_not_dial (congrArg List.length hopened) rfl rfl fun request stage i hdial => ?_, ?_⟩
    · cases htask.symm.trans hdial
    · exact hother.of_ended rfl rfl haccepted htask
  | opens request _ _ hidle htask hopened haccepted =>
    refine ⟨(hme.of_same htask hopened rfl rfl).openSubstream request, hother.of_free ?_ ?_ haccepted rfl⟩
    · rw [hidle]
      rfl
    · intro error hended
      cases hidle.symm.trans hended
  | accepts hidle hmore =>
    exact ⟨hme.of_not_dial rfl rfl rfl fun _ _ _ hdial => (nomatch hdial), hother.accept hidle hmore⟩
  | @dials request stage i packet opened me₁ reply htask hread hdial =>
    obtain ⟨-, haccepted, hcases⟩ := dialRead_cases hdial
    refine ⟨hme.dialRead htask hread hdial, hother.of_free ?_ ?_ haccepted ?_⟩
    · rw [htask]
      rfl
    · intro error hended
      cases htask.symm.trans hended
    · rcases hcases with ⟨stage', hgoes⟩ | hidle | ⟨error, hended⟩
      · exact congrArg Task.serves hgoes
      · exact congrArg Task.serves hidle
      · exact congrArg Task.serves hended
  | listens htask hread hlisten =>
    obtain ⟨hopened, -, hinbound⟩ := listenRead_inbound hlisten
    exact ⟨hme.of_not_dial (congrArg List.length hopened) rfl rfl hinbound.1, hother.listenRead htask hread hlisten⟩
  | serves htask htask₁ hopened₁ haccepted₁ hwait =>
    obtain ⟨hopened, -, hinbound⟩ := waitForSyncResponse_inbound hwait
    refine ⟨hme.of_not_dial (congrArg List.length (hopened.trans hopened₁)) rfl rfl hinbound.1, ?_⟩
    exact (hother.of_same rfl rfl htask₁ haccepted₁).waitForSyncResponse (htask₁.trans htask) hwait

/-! ## Taking turns -/

/-- a worker is in a request only if it was in it before, or has just started it -/
theorem exec_dial (h : me.exec other move = some (me', other')) :
    other'.task = other.task ∧ other'.accepted = other.accepted ∧ me.accepted ≤ me'.accepted ∧
      ∀ request stage i, me'.task = .dial request stage i →
        (∃ stage₀, me.task = .dial request stage₀ i) ∨ move = .command ∧ me.asks = true := by
  cases exec_moved h with
  | stays htask _ haccepted =>
    exact ⟨rfl, rfl, haccepted.ge, fun request stage i hdial => .inl ⟨stage, htask ▸ hdial⟩⟩
  | ends error htask _ haccepted =>
    refine ⟨rfl, rfl, haccepted.ge, fun request stage i hdial => ?_⟩
    cases htask.symm.trans hdial
  | opens request hcommand hasks _ _ _ haccepted =>
    exact ⟨rfl, rfl, haccepted.ge, fun _ _ _ _ => .inr ⟨hcommand, hasks⟩⟩
  | accepts _ _ => exact ⟨rfl, rfl, Nat.le_succ _, fun _ _ _ hdial => nomatch hdial⟩
  | @dials request stage i packet opened me₁ reply htask hread hdial =>
    obtain ⟨-, haccepted, hcases⟩ := dialRead_cases hdial
    refine ⟨rfl, rfl, haccepted.ge, fun request' stage' j hgoes => .inl ?_⟩
    rcases hcases with ⟨stage'', hsame⟩ | hidle | ⟨error, hended⟩
    · cases hsame.symm.trans hgoes
      exact ⟨stage, htask⟩
    · cases hidle.symm.trans hgoes
    · cases hended.symm.trans hgoes
  | listens _ _ hlisten =>
    obtain ⟨-, haccepted, hinbound⟩ := listenRead_inbound hlisten
    exact ⟨rfl, rfl, haccepted.ge, fun request stage i hdial => absurd hdial (hinbound.1 request stage i)⟩
  | serves _ _ _ haccepted₁ hwait =>
    obtain ⟨-, haccepted, hinbound⟩ := waitForSyncResponse_inbound hwait
    refine ⟨rfl, rfl, (haccepted.trans haccepted₁).ge, fun request stage i hdial => ?_⟩
    exact absurd hdial (hinbound.1 request stage i)

/-- requests that cross were crossing before, unless the second was started against the rule -/
theorem calls_of_exec (hcond : Yields me other move) (h : me.exec other move = some (me', other'))
    (hme : me'.calls other' = true) (hother : other'.calls me' = true) : me.calls other = true ∧ other.calls me = true := by
  obtain ⟨htask, haccepted, hmono, hdial⟩ := exec_dial h
  obtain ⟨request, stage, i, hmine, hi⟩ := calls_iff.1 hme
  obtain ⟨request', stage', j, hyours, hj⟩ := calls_iff.1 hother
  have hcalls : other.calls me = true := calls_iff.2 ⟨request', stage', j, htask ▸ hyours, hmono.trans hj⟩
  rcases hdial request stage i hmine with ⟨stage₀, hbefore⟩ | ⟨rfl, hasks⟩
  · exact ⟨calls_iff.2 ⟨request, stage₀, i, hbefore, haccepted ▸ hi⟩, hcalls⟩
  · rw [hcond hasks] at hcalls
    cases hcalls

/-- if both wait, neither has accepted the other's substream -/
theorem Leads.calls_of_waits (h : Leads me other) (hme : me.waits = true) (hother : other.waits = true) :
    me.calls other = true := by
  obtain ⟨request, stage, i, s, htask, hs, hempty⟩ := waits_iff.1 hme
  obtain ⟨request', stage', j, s', htask', -, -⟩ := waits_iff.1 hother
  obtain ⟨-, s'', hs'', hphase⟩ := h.phase request stage i htask
  cases hs.symm.trans hs''
  refine calls_iff.2 ⟨request, stage, i, htask, ?_⟩
  cases hphase with
  | unaccepted before => exact before
  | accepted located => cases htask'.symm.trans located
  | greeted located => cases hempty
  | requested located => cases htask'.symm.trans located
  | selected located => cases hempty
  | sent located => cases htask'.symm.trans located
  | serving retained located => cases htask'.symm.trans located
  | served free after packet => cases hempty
  | ended error located => cases htask'.symm.trans located

/-- a worker in a request that the other, in its main loop, has not accepted has nothing to read -/
theorem Leads.waits_of_calls (h : Leads me other) (hidle : other.task = .idle) (hcalls : me.calls other = true) :
    me.waits = true := by
  obtain ⟨request, stage, i, htask, hi⟩ := calls_iff.1 hcalls
  obtain ⟨-, s, hs, hphase⟩ := h.phase request stage i htask
  refine waits_iff.2 ⟨request, stage, i, s, htask, hs, ?_⟩
  cases hphase with
  | unaccepted before => rfl
  | accepted located => rfl
  | greeted located => cases hidle.symm.trans located
  | requested located => rfl
  | selected located => cases hidle.symm.trans located
  | sent located => rfl
  | serving retained located => rfl
  | served free after packet => omega
  | ended error located => cases hidle.symm.trans located

/-- a request that is started waits for the other side's header -/
theorem exec_asks (hasks : me.asks = true) (h : me.exec other .command = some (me', other')) :
    me.task = .idle ∧ me'.waits = true ∧ other' = other := by
  unfold SessionWorker.asks at hasks
  split at hasks
  · rename_i frame me₁ hidle hnext
    simp only [SessionWorker.exec, hidle, hnext] at h
    cases h
    have hopen : ∀ request, (me₁.openSubstream request).waits = true := by
      intro request
      exact waits_iff.2 ⟨request, .header, _, _, rfl, List.getElem?_concat_length, rfl⟩
    refine ⟨hidle, ?_, rfl⟩
    unfold SessionWorker.handleOutboundFrame
    split at hasks
    · rename_i request hframe
      rw [hframe]
      exact hopen _
    · rename_i request hframe
      rw [hframe]
      exact hopen _
    · cases hasks
  · cases hasks

end Step

/-! ## Runs -/

/-- both exchanges are in order, and no two requests cross -/
structure TurnInv (σ : Pair) : Prop where
  left : Leads σ.left σ.right
  right : Leads σ.right σ.left
  turns : ¬ (σ.left.calls σ.right = true ∧ σ.right.calls σ.left = true)

theorem TurnInv.not_deadlocked {σ : Pair} (h : TurnInv σ) : ¬ Deadlocked σ := by
  intro hdead
  exact h.turns ⟨h.left.calls_of_waits hdead.1 hdead.2, h.right.calls_of_waits hdead.2 hdead.1⟩

theorem leads_start (leftLen rightLen : ℕ) (leftPeer rightPeer : PeerId) :
    Leads (.start leftLen leftPeer) (.start rightLen rightPeer) :=
  ⟨le_rfl, fun _ h => (nomatch h), fun _ _ _ h => nomatch h⟩

theorem TurnInv.step {σ σ' : Pair} {move : Side × WorkerMove} (hI : TurnInv σ) (hcond : TakesTurns σ move)
    (hexec : Pair.machine.exec σ move = some σ') : TurnInv σ' := by
  obtain ⟨side, move⟩ := move
  cases side with
  | left =>
    obtain ⟨⟨me', other'⟩, hmove, rfl⟩ := Option.map_eq_some_iff.1 hexec
    obtain ⟨hleft, hright⟩ := leads_exec hI.left hI.right hmove
    exact ⟨hleft, hright, fun hcross => hI.turns (calls_of_exec hcond hmove hcross.1 hcross.2)⟩
  | right =>
    obtain ⟨⟨me', other'⟩, hmove, rfl⟩ := Option.map_eq_some_iff.1 hexec
    obtain ⟨hright, hleft⟩ := leads_exec hI.right hI.left hmove
    exact ⟨hleft, hright, fun hcross => hI.turns (calls_of_exec hcond hmove hcross.2 hcross.1).symm⟩

theorem turnInv_of_reached {σ : Pair} (h : Pair.machine.Reached TakesTurns σ) : TurnInv σ := by
  refine h.invariant ?_ fun σ move σ' hI hcond hexec => hI.step hcond hexec
  rintro _ ⟨leftLen, rightLen, leftPeer, rightPeer, rfl⟩
  exact ⟨leads_start _ _ _ _, leads_start _ _ _ _, fun h => nomatch h.1⟩

/-- a request that is started against the rule leaves both workers waiting -/
theorem Leads.waits_of_not_yields {me me' other other' : SessionWorker} {move : WorkerMove} (h : Leads other me)
    (hmove : me.exec other move = some (me', other')) (hbroken : ¬ Yields me other move) :
    me'.waits = true ∧ other'.waits = true := by
  cases move with
  | command =>
    obtain ⟨hasks, hcalls⟩ := Classical.not_imp.1 hbroken
    obtain ⟨hidle, hwaits, rfl⟩ := exec_asks hasks hmove
    exact ⟨hwaits, h.waits_of_calls hidle (Bool.not_eq_false _ ▸ hcalls)⟩
  | _ => exact absurd trivial hbroken

/-- **Sessions that take turns do not deadlock.** In every run in which no worker starts a request while the other is in
one that it has not accepted, the workers are never both waiting in a request with nothing to read. And the rule is
exact: the next step of such a run is a deadlock if and only if it breaks the rule. -/
theorem sessions_do_not_deadlock {σ : Pair} (h : Pair.machine.Reached TakesTurns σ) :
    ¬ Deadlocked σ ∧
      ∀ move σ', Pair.machine.exec σ move = some σ' → (Deadlocked σ' ↔ ¬ TakesTurns σ move) := by
  have hI := turnInv_of_reached h
  refine ⟨hI.not_deadlocked, fun move σ' hexec => ⟨fun hdead hcond => ?_, fun hbroken => ?_⟩⟩
  · exact (hI.step hcond hexec).not_deadlocked hdead
  · obtain ⟨side, move⟩ := move
    cases side with
    | left =>
      obtain ⟨⟨me', other'⟩, hmove, rfl⟩ := Option.map_eq_some_iff.1 hexec
      exact hI.right.waits_of_not_yields hmove hbroken
    | right =>
      obtain ⟨⟨me', other'⟩, hmove, rfl⟩ := Option.map_eq_some_iff.1 hexec
      exact (hI.left.waits_of_not_yields hmove hbroken).symm

instance (me other : SessionWorker) : (move : WorkerMove) → Decidable (Yields me other move)
  | .command => inferInstanceAs (Decidable (me.asks = true → other.calls me = false))
  | .push _ | .accept | .read | .closed | .eof => .isTrue trivial

instance (σ : Pair) : (move : Side × WorkerMove) → Decidable (TakesTurns σ move)
  | (.left, move) => inferInstanceAs (Decidable (Yields σ.left σ.right move))
  | (.right, move) => inferInstanceAs (Decidable (Yields σ.right σ.left move))

instance (σ : Pair) : Decidable (Deadlocked σ) :=
  inferInstanceAs (Decidable (σ.left.waits = true ∧ σ.right.waits = true))

end Turns

section Witness

open Sample

/-- a session between two nodes -/
def established : Pair := ⟨.start 1024 peer, .start 1024 peer⟩

/-- the command the engine's `RequestBlocks` turns into -/
def requestFirst : SessionCommand := .sendFrame (NetworkMessage.syncRequest ⟨1, 64⟩).toBytes

/-! ### The left side asks, the right side serves it, and the left side waits for the answer of the engine -/

def inTurn : List (Side × WorkerMove) :=
  [(.left, .push requestFirst), (.left, .command), (.right, .accept), (.right, .read), (.left, .read), (.right, .read),
    (.left, .read), (.right, .read)]

def halfway : Pair := (Pair.machine.replay TakesTurns inTurn established).get (by decide +kernel)

theorem halfway_reached : Pair.machine.Reached TakesTurns halfway :=
  Machine.Reached.of_replay (.start ⟨1024, 1024, peer, peer, rfl⟩) (Option.some_get _).symm

/-- the left worker waits, the right one does not -/
theorem sessions_do_not_deadlock_of_halfway :
    halfway.left.waits = true ∧ halfway.right.events.length = 1 ∧ ¬ Deadlocked halfway :=
  ⟨by decide +kernel, by decide +kernel, (sessions_do_not_deadlock halfway_reached).1⟩

/-! ### Both sides ask as soon as the session stands -/

def atOnce : List (Side × WorkerMove) :=
  [(.left, .push requestFirst), (.right, .push requestFirst), (.left, .command), (.right, .command)]

def crossed : Pair := (Pair.machine.replay (fun _ _ => True) atOnce established).get (by decide +kernel)

theorem crossed_reached : Pair.machine.Reached (fun _ _ => True) crossed :=
  Machine.Reached.of_replay (.start ⟨1024, 1024, peer, peer, rfl⟩) (Option.some_get _).symm

/-- each worker waits in a request that the other has not accepted, and whatever happens next, both go on waiting -/
theorem both_ask_first :
    ∃ σ : Pair, Pair.machine.Reached (fun _ _ => True) σ ∧ Deadlocked σ ∧ σ.left.calls σ.right = true ∧
      σ.right.calls σ.left = true ∧
      ∀ moves σ', Pair.machine.replay (fun _ _ => True) moves σ = some σ' → Deadlocked σ' := by
  have hdead : Deadlocked crossed := by decide +kernel
  refine ⟨crossed, crossed_reached, hdead, by decide +kernel, by decide +kernel, fun moves σ' hmoves => ?_⟩
  exact Machine.replay_invariant (fun _ _ _ hdead _ hexec => hdead.forever hexec) hdead hmoves

end Witness

end RustProof
