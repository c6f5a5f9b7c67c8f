/-
What two established sessions of erp-runtime say to each other (`run_established_session`, `handle_outbound_frame`,
`handle_inbound_substream` and `wait_for_sync_response` of erp-runtime/src/network/session.rs).

In each direction the sessions make calls: the one side opens a substream for a request, the other passes the request on to
its engine and writes a response, and the first side passes the response on to its own. `Talk` says how far the call on the
last substream has come, at both ends and on the substream itself, also after one side or both have ended.

Not part of the program is what is recorded about the past (`Recorded`): the requests for which a side has opened a
substream, and the responses it has written. What a side has passed on is read off the events it has sent.

Results:
- `exec_goes`: a move of either worker is a step of the calls in each direction (`Lib/Calls`), or none;
- `calls_match`: so requests arrive once, in order and unchanged, every response answers the request it comes back for, and
  at most one request of each side is open.
-/
import RustProof.Lib.Calls
import RustProof.Node.Sample
import RustProof.Runtime.Session

namespace RustProof

section Calls

variable [Crypto]

/-! ## Requests and responses -/

/-- what answers a request -/
inductive Response where
  | announce (response : AnnounceResponse)
  | sync (response : SyncResponse)

namespace Request

def message : Request → NetworkMessage
  | .announce request => .announceRequest request
  | .sync request => .syncRequest request

def ofMessage : NetworkMessage → Option Request
  | .announceRequest request => some (.announce request)
  | .syncRequest request => some (.sync request)
  | _ => none

/-- an announcement is accepted, a sync request is answered with blocks -/
def Fits : Request → Response → Prop
  | .announce _, .announce response => response.accepted = true
  | .sync _, .sync _ => True
  | _, _ => False

end Request

namespace Response

def message : Response → NetworkMessage
  | .announce response => .announceResponse response
  | .sync response => .syncResponse response

def ofMessage : NetworkMessage → Option Response
  | .announceResponse response => some (.announce response)
  | .syncResponse response => some (.sync response)
  | _ => none

def payload : Response → List UInt8
  | .announce response => putBool response.accepted
  | .sync response => response.toPostcard

end Response

/-- a request is read as it was asked -/
theorem decodeRequest_payload {request : Request} (hs : request.message.Sized) :
    request.protocol.decodeRequest request.payload = some request.message := by
  cases request with
  | announce request =>
    obtain ⟨kind⟩ := request
    have hkind : Decodes (takeAnnounceKind kind.toPostcard.length) kind.toPostcard kind := by
      cases kind with
      | newTransaction tx =>
        refine (decodes_tag (n := 0) (by norm_num)).bind (decodes_transaction tx _ hs ?_).map
        exact List.length_append ▸ Nat.le_add_left _ _
      | newBlock block =>
        refine (decodes_tag (n := 1) (by norm_num)).bind (decodes_block block _ hs ?_).map
        exact List.length_append ▸ Nat.le_add_left _ _
    have hread := hkind []
    rw [List.append_nil] at hread
    rw [Request.payload, Request.protocol, Protocol.decodeRequest, hread]
    rfl
  | sync request =>
    have hto := decodes_u64 request.toHeight []
    rw [List.append_nil] at hto
    rw [Request.payload, Request.protocol, Protocol.decodeRequest, decodes_u64 request.fromHeight, Option.bind_some, hto]
    rfl

/-- a response is read as it was written -/
theorem decodeResponse_payload {request : Request} {response : Response} (hfits : request.Fits response)
    (hs : response.message.Sized) : request.protocol.decodeResponse response.payload = some response.message := by
  cases request with
  | announce request =>
    cases response with
    | sync => cases hfits
    | announce response =>
      have hread := decodes_bool response.accepted []
      rw [List.append_nil] at hread
      rw [Response.payload, Request.protocol, Protocol.decodeResponse, hread]
      rfl
  | sync request =>
    cases response with
    | announce => cases hfits
    | sync response =>
      have hblocks : Decodes (takeVec (takeBlock response.toPostcard.length)) (putVec Block.toPostcard response.blocks)
          response.blocks := by
        refine decodes_vec hs.1 fun b hb => decodes_block b _ (hs.2 b hb) ?_
        have := length_le_flatMap (f := Block.toPostcard) hb
        simp only [SyncResponse.toPostcard, putVec, List.length_append]
        omega
      have hread : takeVec (takeBlock response.toPostcard.length) response.toPostcard =
          some (response.blocks, putBool response.hasMore ++ putOption putU64 response.nextHeight) := hblocks _
      have hnext := decodes_option decodes_u64 response.nextHeight []
      rw [List.append_nil] at hnext
      rw [Response.payload, Request.protocol, Protocol.decodeResponse, hread, Option.bind_some,
        decodes_bool response.hasMore, Option.bind_some, hnext]
      rfl

/-! ## What was said -/

/-- the message of an event, if it carries one -/
def RuntimeEvent.message? : RuntimeEvent → Option NetworkMessage
  | .frameReceived _ frame => (NetworkMessage.fromBytes frame).toOption
  | _ => none

namespace SessionWorker

/-- what the worker has passed on to its engine -/
def passed (w : SessionWorker) : List NetworkMessage := w.events.filterMap RuntimeEvent.message?

/-- the requests of the other side that it has passed on -/
def delivered (w : SessionWorker) : List Request := w.passed.filterMap Request.ofMessage

/-- the responses to its own requests that it has passed on -/
def returned (w : SessionWorker) : List Response := w.passed.filterMap Response.ofMessage

/-- the request for which a move has opened a substream -/
def starts (me me' : SessionWorker) : List Request :=
  match me.task, me'.task with
  | .idle, .dial request _ _ => [request]
  | _, _ => []

/-- the response that a move has written -/
def writes (me me' : SessionWorker) : List Response :=
  match me.task, me'.task with
  | .listen (.request .announce) _, .idle => [.announce ⟨true⟩]
  | .serveSync _ _, .idle =>
    match me.nextCommand with
    | some (.sendFrame frame, _) => ((NetworkMessage.fromBytes frame).toOption.bind Response.ofMessage).toList
    | _ => []
  | _, _ => []

/-- a worker writes its response and is back in its main loop -/
theorem writes_of_not_idle {me me' : SessionWorker} (h : me'.task ≠ .idle) : me.writes me' = [] := by
  unfold writes
  split
  · rename_i hidle
    exact absurd hidle h
  · rename_i hidle
    exact absurd hidle h
  · rfl

theorem starts_of_not_dial {me me' : SessionWorker} (h : ∀ request stage i, me'.task ≠ .dial request stage i) :
    me.starts me' = [] := by
  unfold starts
  split
  · rename_i hdial
    exact absurd hdial (h _ _ _)
  · rfl

theorem writes_of_free {me me' : SessionWorker} (h : me.task.serves = none) : me.writes me' = [] := by
  unfold writes
  split
  · rename_i hlisten _
    rw [hlisten] at h
    cases h
  · rename_i hserve _
    rw [hserve] at h
    cases h
  · rfl

theorem starts_of_not_idle {me me' : SessionWorker} (h : me.task ≠ .idle) : me.starts me' = [] := by
  unfold starts
  split
  · rename_i hidle _
    exact absurd hidle h
  · rfl

/-- a worker whose task is not changed has said nothing -/
theorem said_nothing {w w' : SessionWorker} (h : w'.task = w.task) : w.starts w' = [] ∧ w.writes w' = [] := by
  by_cases hidle : w.task = .idle
  · refine ⟨starts_of_not_dial fun request stage i hdial => ?_, writes_of_free (by rw [hidle]; rfl)⟩
    cases hdial.symm.trans (h.trans hidle)
  · exact ⟨starts_of_not_idle hidle, writes_of_not_idle (h ▸ hidle)⟩

theorem passed_concat {w w' : SessionWorker} {peer : PeerId} {m : NetworkMessage} (hs : m.Sized)
    (h : w'.events = w.events ++ [.frameReceived peer m.toBytes]) : w'.passed = w.passed ++ [m] := by
  have hround := fromBytes_toBytes_message hs []
  rw [List.append_nil] at hround
  rw [passed, passed, h, List.filterMap_append]
  simp only [List.filterMap_cons, List.filterMap_nil, RuntimeEvent.message?, hround, Except.toOption]

/-- a request is no response -/
theorem passed_request {w w' : SessionWorker} {peer : PeerId} {request : Request} (hs : request.message.Sized)
    (h : w'.events = w.events ++ [.frameReceived peer request.message.toBytes]) :
    w'.delivered = w.delivered ++ [request] ∧ w'.returned = w.returned := by
  rw [delivered, delivered, returned, returned, passed_concat hs h, List.filterMap_append, List.filterMap_append]
  cases request <;> simp [Request.message, Request.ofMessage, Response.ofMessage]

/-- a response is no request -/
theorem passed_response {w w' : SessionWorker} {peer : PeerId} {response : Response} (hs : response.message.Sized)
    (h : w'.events = w.events ++ [.frameReceived peer response.message.toBytes]) :
    w'.delivered = w.delivered ∧ w'.returned = w.returned ++ [response] := by
  rw [delivered, delivered, returned, returned, passed_concat hs h, List.filterMap_append, List.filterMap_append]
  cases response <;> simp [Response.message, Request.ofMessage, Response.ofMessage]

theorem said_same {w w' : SessionWorker} (h : w'.events = w.events) :
    w'.delivered = w.delivered ∧ w'.returned = w.returned := by
  rw [delivered, delivered, returned, returned, passed, passed, h]
  exact ⟨rfl, rfl⟩

end SessionWorker

/-- the past of a worker: the requests it has started and the responses it has written -/
structure Said where
  asked : List Request
  answered : List Response

namespace Said

def start : Said := ⟨[], []⟩

def after (said : Said) (me me' : SessionWorker) : Said := ⟨said.asked ++ me.starts me', said.answered ++ me.writes me'⟩

theorem after_same (said : Said) {w w' : SessionWorker} (h : w'.task = w.task) : said.after w w' = said := by
  obtain ⟨hstarts, hwrites⟩ := SessionWorker.said_nothing h
  rw [after, hstarts, hwrites, List.append_nil, List.append_nil]

end Said

/-- two sessions and their past -/
structure Recorded where
  pair : Pair
  left : Said
  right : Said

namespace Recorded

def exec (σ : Recorded) (side : Side) (move : WorkerMove) : Option Recorded :=
  (σ.pair.exec side move).map fun pair =>
    ⟨pair, σ.left.after σ.pair.left pair.left, σ.right.after σ.pair.right pair.right⟩

def machine : Machine Recorded (Side × WorkerMove) where
  init σ := Pair.machine.init σ.pair ∧ σ.left = .start ∧ σ.right = .start
  exec σ move := σ.exec move.1 move.2

/-- the past is only written down: every run of two sessions is recorded -/
theorem of_reached {pair : Pair} {C : Pair → Side × WorkerMove → Prop} (h : Pair.machine.Reached C pair) :
    ∃ σ, machine.Reached (fun σ move => C σ.pair move) σ ∧ σ.pair = pair := by
  induction h with
  | start init => exact ⟨⟨_, .start, .start⟩, .start ⟨init, rfl, rfl⟩, rfl⟩
  | step _ cond exec ih =>
    obtain ⟨σ, hσ, rfl⟩ := ih
    exact ⟨_, hσ.step cond (congrArg (Option.map _) exec), rfl⟩

end Recorded

/-- the calls from `d` to `l` -/
def callsOf (d l : SessionWorker) (asked : List Request) (answered : List Response) : Calls Request Response :=
  ⟨asked, l.delivered, answered, d.returned⟩

/-! ## One call, seen from both ends -/

/-- in the task, or ended -/
def Task.At (task task' : Task) : Prop := task = task' ∨ ∃ error, task = .ended error

/-- how far the listener has come with substream `i`, and what is on the substream, for every stage of the dialer -/
inductive Progress (task : Task) (accepted : ℕ) (delivered : List Request) (answered : List Response) (request : Request)
    (i : ℕ) : DialStage → Substream → Prop
  | unaccepted (free : task.serves = none) (before : accepted = i) (hd : delivered.length = i) (ha : answered.length = i) :
      Progress task accepted delivered answered request i .header ⟨[.multistream], []⟩
  | accepted (located : task.At (.listen .header i)) (after : accepted = i + 1) (hd : delivered.length = i)
      (ha : answered.length = i) : Progress task accepted delivered answered request i .header ⟨[.multistream], []⟩
  | greeted (located : task.At (.listen .protocol i)) (after : accepted = i + 1) (hd : delivered.length = i)
      (ha : answered.length = i) : Progress task accepted delivered answered request i .header ⟨[], [.multistream]⟩
  | requested (located : task.At (.listen .protocol i)) (after : accepted = i + 1) (hd : delivered.length = i)
      (ha : answered.length = i) :
      Progress task accepted delivered answered request i .selection ⟨[.protocol request.protocol], []⟩
  | selected (located : task.At (.listen (.request request.protocol) i)) (after : accepted = i + 1)
      (hd : delivered.length = i) (ha : answered.length = i) :
      Progress task accepted delivered answered request i .selection ⟨[], [.protocol request.protocol]⟩
  /-- the request was too long to be sent -/
  | withheld (located : task.At (.listen (.request request.protocol) i)) (after : accepted = i + 1)
      (hd : delivered.length = i) (ha : answered.length = i) :
      Progress task accepted delivered answered request i .selection ⟨[], []⟩
  | sent (located : task.At (.listen (.request request.protocol) i)) (after : accepted = i + 1) (hd : delivered.length = i)
      (ha : answered.length = i) :
      Progress task accepted delivered answered request i .response ⟨[.payload request.payload], []⟩
  /-- the listener has read the request, and ended -/
  | lost (error : Option String) (located : task = .ended error) (after : accepted = i + 1)
      (hd : delivered.length = i ∨ delivered.length = i + 1) (ha : answered.length = i) :
      Progress task accepted delivered answered request i .response ⟨[], []⟩
  | serving (retained : List SessionCommand) (located : task = .serveSync i retained) (sync : request.protocol = .sync)
      (after : accepted = i + 1) (hd : delivered.length = i + 1) (taken : delivered[i]? = some request)
      (ha : answered.length = i) :
      Progress task accepted delivered answered request i .response ⟨[], []⟩
  | served (free : task.serves = none) (after : accepted = i + 1) (hd : delivered.length = i + 1)
      (ha : answered.length = i + 1) (response : Response) (answer : answered[i]? = some response)
      (fits : request.Fits response) (sized : response.message.Sized) :
      Progress task accepted delivered answered request i .response ⟨[], [.payload response.payload]⟩

/-- the calls from `d` to `l`, of which all but the last are over -/
inductive Talk (d l : SessionWorker) (asked : List Request) (answered : List Response) : Prop
  /-- the last one, too; it may be that its response could not be read -/
  | rest (rests : ∀ request stage i, d.task ≠ .dial request stage i) (free : l.task.serves = none)
      (accepted : l.accepted = d.opened.length) (hasked : asked.length = d.opened.length)
      (delivered : l.delivered.length = d.opened.length) (hanswered : answered.length = d.opened.length)
      (returned : d.returned.length = d.opened.length ∨
        (∃ error, d.task = .ended error) ∧ d.returned.length + 1 = d.opened.length)
  | pending (i : ℕ) (request : Request) (stage : DialStage) (s : Substream) (last : d.opened.length = i + 1)
      (hasked : asked.length = i + 1) (question : asked[i]? = some request) (sized : request.message.Sized)
      (stream : d.opened[i]? = some s) (returned : d.returned.length = i) (calling : d.task.At (.dial request stage i))
      (progress : Progress l.task l.accepted l.delivered answered request i stage s)

variable {d d' l l' : SessionWorker} {asked asked' : List Request} {answered answered' : List Response}

/-- the calls go on, by steps of theirs -/
def Goes (d l : SessionWorker) (asked : List Request) (answered : List Response) (d' l' : SessionWorker)
    (asked' : List Request) (answered' : List Response) : Prop :=
  Talk d' l' asked' answered' ∧
    Relation.ReflTransGen (Calls.Step Request.Fits) (callsOf d l asked answered) (callsOf d' l' asked' answered')

/-- a command is taken without a word -/
theorem nextCommand_quiet {w w' : SessionWorker} {command : SessionCommand} (h : w.nextCommand = some (command, w')) :
    w'.task = w.task ∧ w'.opened = w.opened ∧ w'.accepted = w.accepted ∧ w'.events = w.events := by
  unfold SessionWorker.nextCommand at h
  split at h
  · cases h
    exact ⟨rfl, rfl, rfl, rfl⟩
  · cases h
    exact ⟨rfl, rfl, rfl, rfl⟩
  · cases h

/-- a wait passes nothing on; the response that it writes is the one of the command -/
theorem waitForSyncResponse_said {w w' : SessionWorker} {i : ℕ} {retained : List SessionCommand} {command : SessionCommand}
    {reply : Option Packet} (h : w.waitForSyncResponse i retained command = (w', reply)) :
    w'.accepted = w.accepted ∧ w'.events = w.events ∧
      ((∃ error, w'.task = .ended error) ∧ reply = none ∨
        (∃ retained', w'.task = .serveSync i retained') ∧ reply = none ∨
        ∃ response, w'.task = .idle ∧
          (∃ frame, command = .sendFrame frame ∧ NetworkMessage.fromBytes frame = .ok (.syncResponse response)) ∧
          reply = some (.payload (Response.sync response).payload)) := by
  unfold SessionWorker.waitForSyncResponse at h
  split at h
  · rename_i frame
    split at h
    · cases h
      exact ⟨rfl, rfl, .inl ⟨⟨_, rfl⟩, rfl⟩⟩
    · rename_i response hframe
      dsimp only at h
      split_ifs at h
      · cases h
        exact ⟨rfl, rfl, .inl ⟨⟨_, rfl⟩, rfl⟩⟩
      · cases h
        exact ⟨rfl, rfl, .inr (.inr ⟨response, rfl, ⟨frame, rfl, hframe⟩, rfl⟩)⟩
    · cases h
      exact ⟨rfl, rfl, .inr (.inl ⟨⟨_, rfl⟩, rfl⟩)⟩
  · cases h
    exact ⟨rfl, rfl, .inl ⟨⟨_, rfl⟩, rfl⟩⟩

namespace Talk

/-- the calls are about tasks, substreams and what was passed on -/
theorem of_same (h : Talk d l asked answered) (htask : d'.task = d.task) (hopened : d'.opened = d.opened)
    (hreturned : d'.returned = d.returned) (htask' : l'.task = l.task) (haccepted : l'.accepted = l.accepted)
    (hdelivered : l'.delivered = l.delivered) : Goes d l asked answered d' l' asked answered := by
  refine ⟨?_, ?_⟩
  · cases h with
    | rest rests free accepted hasked delivered hanswered returned =>
      rw [← htask] at rests returned
      rw [← hopened] at accepted hasked delivered hanswered returned
      rw [← hreturned] at returned
      rw [← htask'] at free
      rw [← haccepted] at accepted
      rw [← hdelivered] at delivered
      exact .rest rests free accepted hasked delivered hanswered returned
    | pending i request stage s last hasked question sized stream returned calling progress =>
      rw [← hopened] at last stream
      rw [← hreturned] at returned
      rw [← htask] at calling
      rw [← htask', ← haccepted, ← hdelivered] at progress
      exact .pending i request stage s last hasked question sized stream returned calling progress
  · rw [callsOf, callsOf, hdelivered, hreturned]

end Talk

/-- a listener that has been written to goes on as before -/
theorem Goes.listener_opened (h : Goes d l asked answered d' l' asked' answered') (opened : List Substream) :
    Goes d l asked answered d' { l' with opened := opened } asked' answered' := by
  obtain ⟨htalk, hsteps⟩ := h
  have hsame : Goes d' l' asked' answered' d' { l' with opened := opened } asked' answered' :=
    htalk.of_same rfl rfl rfl rfl rfl rfl
  exact ⟨hsame.1, hsteps.trans hsame.2⟩

namespace Talk

/-- the dialer ends -/
theorem dialer_ends (h : Talk d l asked answered) {error : Option String} (hended : d'.task = .ended error)
    (hopened : d'.opened = d.opened) (hreturned : d'.returned = d.returned) :
    Goes d l asked answered d' l asked answered := by
  refine ⟨?_, ?_⟩
  · cases h with
    | rest rests free accepted hasked delivered hanswered returned =>
      rw [← hopened] at accepted hasked delivered hanswered returned
      rw [← hreturned] at returned
      refine .rest (fun request stage i hdial => ?_) free accepted hasked delivered hanswered ?_
      · cases hended.symm.trans hdial
      · exact returned.imp_right fun hlost => ⟨⟨error, hended⟩, hlost.2⟩
    | pending i request stage s last hasked question sized stream returned calling progress =>
      rw [← hopened] at last stream
      rw [← hreturned] at returned
      exact .pending i request stage s last hasked question sized stream returned (.inr ⟨error, hended⟩) progress
  · rw [callsOf, callsOf, hreturned]

/-- the dialer is busy with something that is not a call -/
theorem dialer_rests (h : Talk d l asked answered) (hrests : ∀ request stage i, d.task ≠ .dial request stage i)
    (hruns : ∀ error, d.task ≠ .ended error) (hrests' : ∀ request stage i, d'.task ≠ .dial request stage i)
    (hopened : d'.opened = d.opened) (hreturned : d'.returned = d.returned) :
    Goes d l asked answered d' l asked answered := by
  refine ⟨?_, ?_⟩
  · cases h with
    | rest rests free accepted hasked delivered hanswered returned =>
      rw [← hopened] at accepted hasked delivered hanswered returned
      rw [← hreturned] at returned
      refine .rest hrests' free accepted hasked delivered hanswered (.inl ?_)
      exact returned.resolve_right fun hlost => hruns _ hlost.1.choose_spec
    | pending i request stage s last hasked question sized stream returned calling progress =>
      rcases calling with hdial | ⟨error, hended⟩
      · exact absurd hdial (hrests _ _ _)
      · exact absurd hended (hruns error)
  · rw [callsOf, callsOf, hreturned]

/-- the listener is busy with something that is not a substream of the dialer -/
theorem listener_free (h : Talk d l asked answered) (hfree : l.task.serves = none)
    (hruns : ∀ error, l.task ≠ .ended error) (hfree' : l'.task.serves = none) (haccepted : l'.accepted = l.accepted)
    (hdelivered : l'.delivered = l.delivered) :
    Goes d l asked answered d l' asked answered := by
  have hnot {i : ℕ} {stage : ListenStage} : ¬ l.task.At (.listen stage i) := by
    rintro (hlisten | ⟨error, hended⟩)
    · rw [hlisten] at hfree
      cases hfree
    · exact hruns error hended
  refine ⟨?_, ?_⟩
  · cases h with
    | rest rests free accepted hasked delivered hanswered returned =>
      rw [← haccepted] at accepted
      rw [← hdelivered] at delivered
      exact .rest rests hfree' accepted hasked delivered hanswered returned
    | pending i request stage s last hasked question sized stream returned calling progress =>
      refine .pending i request stage s last hasked question sized stream returned calling ?_
      rw [haccepted, hdelivered]
      cases progress with
      | unaccepted free before hd ha => exact .unaccepted hfree' before hd ha
      | accepted located => exact absurd located hnot
      | greeted located => exact absurd located hnot
      | requested located => exact absurd located hnot
      | selected located => exact absurd located hnot
      | withheld located => exact absurd located hnot
      | sent located => exact absurd located hnot
      | lost error located => exact absurd located (hruns error)
      | serving retained located =>
        rw [located] at hfree
        cases hfree
      | served free after hd ha response answer fits sized' => exact .served hfree' after hd ha response answer fits sized'
  · rw [callsOf, callsOf, hdelivered]

/-- the listener ends -/
theorem listener_ends (h : Talk d l asked answered) {error : Option String} (hended : l'.task = .ended error)
    (haccepted : l'.accepted = l.accepted) (hdelivered : l'.delivered = l.delivered) :
    Goes d l asked answered d l' asked answered := by
  have hfree : l'.task.serves = none := by
    rw [hended]
    rfl
  refine ⟨?_, ?_⟩
  · cases h with
    | rest rests free accepted hasked delivered hanswered returned =>
      rw [← haccepted] at accepted
      rw [← hdelivered] at delivered
      exact .rest rests hfree accepted hasked delivered hanswered returned
    | pending i request stage s last hasked question sized stream returned calling progress =>
      refine .pending i request stage s last hasked question sized stream returned calling ?_
      rw [haccepted, hdelivered]
      cases progress with
      | unaccepted free before hd ha => exact .unaccepted hfree before hd ha
      | accepted _ after hd ha => exact .accepted (.inr ⟨error, hended⟩) after hd ha
      | greeted _ after hd ha => exact .greeted (.inr ⟨error, hended⟩) after hd ha
      | requested _ after hd ha => exact .requested (.inr ⟨error, hended⟩) after hd ha
      | selected _ after hd ha => exact .selected (.inr ⟨error, hended⟩) after hd ha
      | withheld _ after hd ha => exact .withheld (.inr ⟨error, hended⟩) after hd ha
      | sent _ after hd ha => exact .sent (.inr ⟨error, hended⟩) after hd ha
      | lost _ _ after hd ha => exact .lost error hended after hd ha
      | serving _ _ _ after hd _ ha => exact .lost error hended after (.inr hd) ha
      | served free after hd ha response answer fits sized' => exact .served hfree after hd ha response answer fits sized'
  · rw [callsOf, callsOf, hdelivered]

/-- a new call -/
theorem openSubstream (h : Talk d l asked answered) (hidle : d.task = .idle) (hopened : d'.opened = d.opened)
    (hreturned : d'.returned = d.returned) {request : Request} (hsized : request.message.Sized) :
    Goes d l asked answered (d'.openSubstream request) l (asked ++ [request]) answered := by
  have hret : (d'.openSubstream request).returned = d.returned := (SessionWorker.said_same rfl).2.trans hreturned
  cases h with
  | rest rests free accepted hasked delivered hanswered returned =>
    have hcount := returned.resolve_right fun hlost => by
      obtain ⟨error, hended⟩ := hlost.1
      cases hidle.symm.trans hended
    refine ⟨?_, ?_⟩
    · refine .pending d.opened.length request .header ⟨[.multistream], []⟩ ?_ ?_ ?_ hsized ?_ ?_ (.inl ?_)
        (.unaccepted free accepted delivered hanswered)
      · simp only [SessionWorker.openSubstream, List.length_append, List.length_singleton, hopened]
      · rw [List.length_append, List.length_singleton, hasked]
      · rw [← hasked]
        exact List.getElem?_concat_length
      · rw [SessionWorker.openSubstream, hopened]
        exact List.getElem?_concat_length
      · rw [hret]
        exact hcount
      · rw [SessionWorker.openSubstream, hopened]
    · rw [callsOf, callsOf, hret]
      exact .single (.ask request (hcount.trans hasked.symm))
  | pending i request' stage s last hasked question sized stream returned calling progress =>
    rcases calling with hdial | ⟨error, hended⟩
    · cases hidle.symm.trans hdial
    · cases hidle.symm.trans hended

/-- the next substream is accepted -/
theorem accept (h : Talk d l asked answered) (hidle : l.task = .idle) (hmore : l.accepted < d.opened.length) :
    Goes d l asked answered d { l with task := .listen .header l.accepted, accepted := l.accepted + 1 } asked answered := by
  refine ⟨?_, .refl⟩
  have hnot {stage : ListenStage} {i : ℕ} : ¬ l.task.At (.listen stage i) := by
    rintro (hlisten | ⟨error, hended⟩)
    · cases hidle.symm.trans hlisten
    · cases hidle.symm.trans hended
  cases h with
  | rest rests free accepted => omega
  | pending i request stage s last hasked question sized stream returned calling progress =>
    refine .pending i request stage s last hasked question sized stream returned calling ?_
    cases progress with
    | unaccepted free before hd ha => exact .accepted (.inl (by rw [before])) (by rw [before]) hd ha
    | accepted located => exact absurd located hnot
    | greeted located => exact absurd located hnot
    | requested located => exact absurd located hnot
    | selected located => exact absurd located hnot
    | withheld located => exact absurd located hnot
    | sent located => exact absurd located hnot
    | lost error located => cases hidle.symm.trans located
    | serving retained located => cases hidle.symm.trans located
    | served free after => omega

/-- what the dialer reads was put there by the listener -/
theorem dialRead (h : Talk d l asked answered) {request : Request} {stage : DialStage} {i : ℕ} {packet : Packet}
    {opened : List Substream} {reply : Option Packet} (htask : d.task = .dial request stage i)
    (hread : readAsDialer d.opened i = some (packet, opened)) (hdial : d.dialRead request i stage packet = (d', reply)) :
    Goes d l asked answered { d' with opened := writeToListener opened i reply } l asked answered ∧
      d'.delivered = d.delivered := by
  obtain ⟨toListener, toDialer, hstream, rfl⟩ := readAsDialer_eq_some hread
  have hlen : (writeToListener (d.opened.set i ⟨toListener, toDialer⟩) i reply).length = d.opened.length := by
    rw [length_writeToListener, List.length_set]
  have hnow : (writeToListener (d.opened.set i ⟨toListener, toDialer⟩) i reply)[i]? =
      some ⟨toListener ++ reply.toList, toDialer⟩ := getElem?_writeToListener (getElem?_set_of_some hstream _) reply
  cases h with
  | rest rests => exact absurd htask (rests _ _ _)
  | pending j request' stage' s last hasked question sized stream returned calling progress =>
    rcases calling with hcalling | ⟨error, hended⟩
    · cases htask.symm.trans hcalling
      cases hstream.symm.trans stream
      -- the call goes on
      have hnext : ∀ stage', d'.task.At (.dial request stage' i) → d'.events = d.events →
          Progress l.task l.accepted l.delivered answered request i stage' ⟨toListener ++ reply.toList, toDialer⟩ →
          Goes d l asked answered { d' with opened := writeToListener (d.opened.set i ⟨toListener, toDialer⟩) i reply } l
              asked answered ∧ d'.delivered = d.delivered := by
        intro stage' hat hevents hprogress
        obtain ⟨hdelivered, hreturned⟩ := SessionWorker.said_same hevents
        refine ⟨⟨.pending i request stage' _ (hlen.trans last) hasked question sized hnow (hreturned ▸ returned) hat
          hprogress, ?_⟩, hdelivered⟩
        rw [callsOf, callsOf, ← hreturned]
        exact .refl
      cases progress with
      | greeted located after hd ha =>
        cases hdial
        exact hnext .selection (.inl rfl) rfl (.requested located after hd ha)
      | selected located after hd ha =>
        simp only [SessionWorker.dialRead, if_true] at hdial
        split_ifs at hdial
        · cases hdial
          exact hnext .selection (.inr ⟨_, rfl⟩) rfl (.withheld located after hd ha)
        · cases hdial
          exact hnext .response (.inl rfl) rfl (.sent located after hd ha)
      | served free after hd ha response answer fits sized' =>
        have hrest (hrests : ∀ request stage i, d'.task ≠ .dial request stage i)
            (hreturned : d'.returned.length = i + 1 ∨ (∃ error, d'.task = .ended error) ∧ d'.returned.length + 1 = i + 1) :
            Talk { d' with opened := writeToListener (d.opened.set i ⟨[], []⟩) i reply } l asked answered := by
          refine .rest hrests free ?_ ?_ ?_ ?_ ?_
          all_goals rw [hlen, last]
          · exact after
          · exact hasked
          · exact hd
          · exact ha
          · exact hreturned
        simp only [SessionWorker.dialRead, decodeResponse_payload fits sized'] at hdial
        split_ifs at hdial
        · cases hdial
          refine ⟨⟨hrest (fun _ _ _ hdial => by cases hdial) (.inr ⟨⟨_, rfl⟩, congrArg (· + 1) returned⟩), ?_⟩, rfl⟩
          exact .refl
        · cases hdial
          have hevents : ({ d with task := .idle, events := d.events ++ [.frameReceived d.remoteNodePeer
              response.message.toBytes] } : SessionWorker).events =
            d.events ++ [.frameReceived d.remoteNodePeer response.message.toBytes] := rfl
          obtain ⟨hdelivered, hreturned⟩ := SessionWorker.passed_response sized' hevents
          refine ⟨⟨hrest (fun _ _ _ hdial => by cases hdial) (.inl ?_), ?_⟩, hdelivered⟩
          · rw [hreturned, List.length_append, List.length_singleton, returned]
          · have hstep : Calls.Step Request.Fits (callsOf d l asked answered)
                ⟨asked, l.delivered, answered, d.returned ++ [response]⟩ := .ret (by rw [callsOf, returned]; exact answer)
            rw [← hreturned] at hstep
            exact .single hstep
    · cases htask.symm.trans hended

/-- the listener has read a request and passed it on, or it has ended before -/
theorem listenRead_request_said {protocol : Protocol} {bytes : List UInt8} {reply : Option Packet} {i : ℕ}
    {request : Request} (hprotocol : request.protocol = protocol) (hsized : request.message.Sized)
    (hbytes : request.payload = bytes) (h : l.listenRead i (.request protocol) (.payload bytes) = (l', reply)) :
    ((∃ error, l'.task = .ended error) ∧ l'.events = l.events ∧ reply = none) ∨
      (l'.events = l.events ++ [.frameReceived l.remoteNodePeer request.message.toBytes] ∧
        ((∃ error, l'.task = .ended error) ∧ reply = none ∨
          protocol = .announce ∧ l'.task = .idle ∧ reply = some (.payload (Response.announce ⟨true⟩).payload) ∨
          protocol = .sync ∧ l'.task = .serveSync i [] ∧ reply = none)) := by
  subst hbytes hprotocol
  simp only [SessionWorker.listenRead, decodeRequest_payload hsized] at h
  split at h
  · cases h
    exact .inl ⟨⟨_, rfl⟩, rfl, rfl⟩
  · split at h
    · rename_i hannounce
      split_ifs at h
      · cases h
        exact .inr ⟨rfl, .inl ⟨⟨_, rfl⟩, rfl⟩⟩
      · cases h
        exact .inr ⟨rfl, .inr (.inl ⟨hannounce, rfl, rfl⟩)⟩
    · rename_i hsync
      cases h
      exact .inr ⟨rfl, .inr (.inr ⟨hsync, rfl, rfl⟩)⟩

/-- what the listener reads was put there by the dialer -/
theorem listenRead (h : Talk d l asked answered) {stage : ListenStage} {i : ℕ} {packet : Packet} {opened : List Substream}
    {reply : Option Packet} (htask : l.task = .listen stage i) (hread : readAsListener d.opened i = some (packet, opened))
    (hlisten : l.listenRead i stage packet = (l', reply)) :
    Goes d l asked answered { d with opened := writeToDialer opened i reply } l' asked (answered ++ l.writes l') ∧
      l'.returned = l.returned := by
  obtain ⟨toListener, toDialer, hstream, rfl⟩ := readAsListener_eq_some hread
  obtain ⟨-, haccepted, -⟩ := listenRead_inbound hlisten
  have hlen : (writeToDialer (d.opened.set i ⟨toListener, toDialer⟩) i reply).length = d.opened.length := by
    rw [length_writeToDialer, List.length_set]
  have hnow : (writeToDialer (d.opened.set i ⟨toListener, toDialer⟩) i reply)[i]? =
      some ⟨toListener, toDialer ++ reply.toList⟩ := getElem?_writeToDialer (getElem?_set_of_some hstream _) reply
  have hbusy : l.task.serves ≠ none := by
    rw [htask]
    exact fun h => by cases h
  have hrunning {error : Option String} : l.task ≠ .ended error := by
    rw [htask]
    exact fun h => by cases h
  have hat {stage' : ListenStage} {j : ℕ} (hlocated : l.task.At (.listen stage' j)) : stage' = stage ∧ j = i := by
    rcases hlocated with hlocated | ⟨error, hended⟩
    · cases htask.symm.trans hlocated
      exact ⟨rfl, rfl⟩
    · exact absurd hended hrunning
  cases h with
  | rest rests free => exact absurd free hbusy
  | pending j request dialStage s last hasked question sized stream returned calling progress =>
    -- the call goes on
    have hnext (hj : j = i) (answered' : List Response) (dialStage' : DialStage)
        (hcalling : d.task.At (.dial request dialStage' i))
        (hprogress : Progress l'.task l.accepted l'.delivered answered' request i dialStage'
          ⟨toListener, toDialer ++ reply.toList⟩) :
        Talk { d with opened := writeToDialer (d.opened.set i ⟨toListener, toDialer⟩) i reply } l' asked answered' := by
      subst hj
      rw [← haccepted] at hprogress
      exact .pending j request dialStage' _ (hlen.trans last) hasked question sized hnow returned hcalling hprogress
    cases progress with
    | unaccepted free => exact absurd free hbusy
    | accepted located after hd ha =>
      obtain ⟨rfl, rfl⟩ := hat located
      cases hstream.symm.trans stream
      cases hlisten
      have hwrites : l.writes { l with task := .listen .protocol j } = [] :=
        SessionWorker.writes_of_not_idle fun hidle => by cases hidle
      rw [hwrites, List.append_nil]
      exact ⟨⟨hnext rfl _ _ calling (.greeted (.inl rfl) after hd ha), .refl⟩, rfl⟩
    | greeted located =>
      obtain ⟨rfl, rfl⟩ := hat located
      cases hstream.symm.trans stream
    | requested located after hd ha =>
      obtain ⟨rfl, rfl⟩ := hat located
      cases hstream.symm.trans stream
      cases hlisten
      have hwrites : l.writes { l with task := .listen (.request request.protocol) j } = [] :=
        SessionWorker.writes_of_not_idle fun hidle => by cases hidle
      rw [hwrites, List.append_nil]
      exact ⟨⟨hnext rfl _ _ calling (.selected (.inl rfl) after hd ha), .refl⟩, rfl⟩
    | selected located =>
      obtain ⟨rfl, rfl⟩ := hat located
      cases hstream.symm.trans stream
    | withheld located =>
      obtain ⟨rfl, rfl⟩ := hat located
      cases hstream.symm.trans stream
    | sent located after hd ha =>
      obtain ⟨rfl, rfl⟩ := hat located
      cases hstream.symm.trans stream
      have hdeliver : Calls.Step Request.Fits (callsOf d l asked answered)
          ⟨asked, l.delivered ++ [request], answered, d.returned⟩ := .deliver (by rw [callsOf, hd]; exact question)
      have htaken : (l.delivered ++ [request])[j]? = some request := by
        rw [← hd]
        exact List.getElem?_concat_length
      have hcount : (l.delivered ++ [request]).length = j + 1 := by rw [List.length_append, List.length_singleton, hd]
      rcases listenRead_request_said rfl sized rfl hlisten with ⟨⟨error, hended⟩, hevents, rfl⟩ | ⟨hevents, hcases⟩
      · obtain ⟨hdelivered, hreturned⟩ := SessionWorker.said_same hevents
        have hwrites : l.writes l' = [] := SessionWorker.writes_of_not_idle fun hidle => by cases hended.symm.trans hidle
        rw [hwrites, List.append_nil]
        refine ⟨⟨hnext rfl _ _ calling (.lost error hended after (.inl (hdelivered ▸ hd)) ha), ?_⟩, hreturned⟩
        rw [callsOf, callsOf, hdelivered]
        exact .refl
      · obtain ⟨hdelivered, hreturned⟩ := SessionWorker.passed_request sized hevents
        rw [← hdelivered] at hdeliver htaken hcount
        rcases hcases with ⟨⟨error, hended⟩, rfl⟩ | ⟨hannounce, hidle, rfl⟩ | ⟨hsync, hserving, rfl⟩
        · have hwrites : l.writes l' = [] := SessionWorker.writes_of_not_idle fun hidle => by cases hended.symm.trans hidle
          rw [hwrites, List.append_nil]
          exact ⟨⟨hnext rfl _ _ calling (.lost error hended after (.inr hcount) ha), .single hdeliver⟩, hreturned⟩
        · have hwrites : l.writes l' = [.announce ⟨true⟩] := by simp only [SessionWorker.writes, htask, hidle, hannounce]
          have hfits : request.Fits (.announce ⟨true⟩) := by
            cases request with
            | announce => rfl
            | sync => cases hannounce
          have hanswer : Calls.Step Request.Fits ⟨asked, l'.delivered, answered, d.returned⟩
              ⟨asked, l'.delivered, answered ++ [.announce ⟨true⟩], d.returned⟩ := .answer (by rw [ha]; exact htaken) hfits
          have hfree : l'.task.serves = none := by
            rw [hidle]
            rfl
          have hlast : (answered ++ [Response.announce ⟨true⟩])[j]? = some (.announce ⟨true⟩) := by
            rw [← ha]
            exact List.getElem?_concat_length
          rw [hwrites]
          refine ⟨⟨hnext rfl _ _ calling (.served hfree after hcount ?_ _ hlast hfits trivial),
            .tail (.single hdeliver) hanswer⟩, hreturned⟩
          rw [List.length_append, List.length_singleton, ha]
        · have hwrites : l.writes l' = [] := SessionWorker.writes_of_not_idle fun hidle => by cases hserving.symm.trans hidle
          rw [hwrites, List.append_nil]
          exact ⟨⟨hnext rfl _ _ calling (.serving [] hserving hsync after hcount htaken ha), .single hdeliver⟩, hreturned⟩
    | lost error located => exact absurd located hrunning
    | serving retained located => cases htask.symm.trans located
    | served free => exact absurd free hbusy

/-- the engine's response goes out, or the command is put aside, or the listener ends -/
theorem waitForSyncResponse (h : Talk d l asked answered) {i : ℕ} {retained : List SessionCommand} {command : SessionCommand}
    {l₁ : SessionWorker} {reply : Option Packet} (htask : l.task = .serveSync i retained)
    (hnext : l.nextCommand = some (command, l₁)) (hwait : l₁.waitForSyncResponse i retained command = (l', reply)) :
    Goes d l asked answered { d with opened := writeToDialer d.opened i reply } l' asked (answered ++ l.writes l') ∧
      l'.returned = l.returned := by
  obtain ⟨-, -, haccepted₁, hevents₁⟩ := nextCommand_quiet hnext
  obtain ⟨haccepted₂, hevents₂, hcases⟩ := waitForSyncResponse_said hwait
  obtain ⟨hdelivered, hreturned⟩ := SessionWorker.said_same (hevents₂.trans hevents₁)
  have haccepted := haccepted₂.trans haccepted₁
  have hbusy : l.task.serves ≠ none := by
    rw [htask]
    exact fun h => by cases h
  have hnot {stage : ListenStage} {j : ℕ} : ¬ l.task.At (.listen stage j) := by
    rintro (hlisten | ⟨error, hended⟩)
    · cases htask.symm.trans hlisten
    · cases htask.symm.trans hended
  refine ⟨?_, hreturned⟩
  cases h with
  | rest rests free => exact absurd free hbusy
  | pending j request stage s last hasked question sized stream returned calling progress =>
    cases progress with
    | unaccepted free => exact absurd free hbusy
    | accepted located => exact absurd located hnot
    | greeted located => exact absurd located hnot
    | requested located => exact absurd located hnot
    | selected located => exact absurd located hnot
    | withheld located => exact absurd located hnot
    | sent located => exact absurd located hnot
    | lost error located => cases htask.symm.trans located
    | served free => exact absurd free hbusy
    | serving retained' located sync after hd taken ha =>
      cases htask.symm.trans located
      rw [← haccepted] at after
      rw [← hdelivered] at hd taken
      have hlen : (writeToDialer d.opened i reply).length = i + 1 := (length_writeToDialer _ _ _).trans last
      have hnow : (writeToDialer d.opened i reply)[i]? = some ⟨[], [] ++ reply.toList⟩ := getElem?_writeToDialer stream reply
      have hgoes (answered' : List Response)
          (hprogress : Progress l'.task l'.accepted l'.delivered answered' request i .response ⟨[], [] ++ reply.toList⟩) :
          Talk { d with opened := writeToDialer d.opened i reply } l' asked answered' :=
        .pending i request .response _ hlen hasked question sized hnow returned calling hprogress
      rcases hcases with ⟨⟨error, hended⟩, rfl⟩ | ⟨⟨retained', hserving⟩, rfl⟩ | ⟨response, hidle, hreading, rfl⟩
      · have hwrites : l.writes l' = [] := SessionWorker.writes_of_not_idle fun hidle => by cases hended.symm.trans hidle
        rw [hwrites, List.append_nil]
        refine ⟨hgoes _ (.lost error hended after (.inr hd) ha), ?_⟩
        rw [callsOf, callsOf, hdelivered]
        exact .refl
      · have hwrites : l.writes l' = [] := SessionWorker.writes_of_not_idle fun hidle => by cases hserving.symm.trans hidle
        rw [hwrites, List.append_nil]
        refine ⟨hgoes _ (.serving retained' hserving sync after hd taken ha), ?_⟩
        rw [callsOf, callsOf, hdelivered]
        exact .refl
      · obtain ⟨frame, rfl, hframe⟩ := hreading
        have hwrites : l.writes l' = [.sync response] := by
          simp only [SessionWorker.writes, htask, hidle, hnext, hframe, Except.toOption, Option.bind_some,
            Response.ofMessage, Option.toList_some]
        have hfits : request.Fits (.sync response) := by
          cases request with
          | announce => cases sync
          | sync => trivial
        have hanswer : Calls.Step Request.Fits (callsOf d l asked answered)
            ⟨asked, l.delivered, answered ++ [.sync response], d.returned⟩ :=
          .answer (by rw [callsOf, ha, ← hdelivered]; exact taken) hfits
        have hfree : l'.task.serves = none := by
          rw [hidle]
          rfl
        have hlast : (answered ++ [Response.sync response])[i]? = some (.sync response) := by
          rw [← ha]
          exact List.getElem?_concat_length
        rw [hwrites]
        refine ⟨hgoes _ (.served hfree after hd ?_ _ hlast hfits (fromBytes_sized hframe)), ?_⟩
        · rw [List.length_append, List.length_singleton, ha]
        · rw [← hdelivered] at hanswer
          exact .single hanswer

end Talk

section Step

variable {me me' other other' : SessionWorker} {move : WorkerMove} {askedMe askedOther : List Request}
  {answeredMe answeredOther : List Response}

/-- the worker ends by the move, having said nothing -/
theorem goes_ends (hme : Talk me other askedMe answeredOther) (hother : Talk other me askedOther answeredMe)
    {error : Option String} (htask : me'.task = .ended error) (hopened : me'.opened = me.opened)
    (haccepted : me'.accepted = me.accepted) (hevents : me'.events = me.events) :
    Goes me other askedMe answeredOther me' other (askedMe ++ me.starts me') answeredOther ∧
      Goes other me askedOther answeredMe other me' askedOther (answeredMe ++ me.writes me') := by
  have hstarts : me.starts me' = [] := SessionWorker.starts_of_not_dial fun request stage i hdial => by
    cases htask.symm.trans hdial
  have hwrites : me.writes me' = [] := SessionWorker.writes_of_not_idle fun hidle => by cases htask.symm.trans hidle
  obtain ⟨hdelivered, hreturned⟩ := SessionWorker.said_same hevents
  rw [hstarts, hwrites, List.append_nil, List.append_nil]
  exact ⟨hme.dialer_ends htask hopened hreturned, hother.listener_ends htask haccepted hdelivered⟩

/-- a frame from the main loop starts a call or ends the session -/
theorem goes_handleOutboundFrame (hme : Talk me other askedMe answeredOther) (hother : Talk other me askedOther answeredMe)
    {frame : Frame} {me₁ : SessionWorker} (hidle : me.task = .idle) (hnext : me.nextCommand = some (.sendFrame frame, me₁)) :
    Goes me other askedMe answeredOther (me₁.handleOutboundFrame frame) other
        (askedMe ++ me.starts (me₁.handleOutboundFrame frame)) answeredOther ∧
      Goes other me askedOther answeredMe other (me₁.handleOutboundFrame frame) askedOther
        (answeredMe ++ me.writes (me₁.handleOutboundFrame frame)) := by
  obtain ⟨htask₁, hopened₁, haccepted₁, hevents₁⟩ := nextCommand_quiet hnext
  obtain ⟨hdelivered₁, hreturned₁⟩ := SessionWorker.said_same hevents₁
  have hwrites (w : SessionWorker) : me.writes w = [] := SessionWorker.writes_of_free (by rw [hidle]; rfl)
  have hopen (request : Request) (hsized : request.message.Sized) :
      Goes me other askedMe answeredOther (me₁.openSubstream request) other
          (askedMe ++ me.starts (me₁.openSubstream request)) answeredOther ∧
        Goes other me askedOther answeredMe other (me₁.openSubstream request) askedOther
          (answeredMe ++ me.writes (me₁.openSubstream request)) := by
    have hstarts : me.starts (me₁.openSubstream request) = [request] := by
      simp only [SessionWorker.starts, hidle, SessionWorker.openSubstream]
    rw [hstarts, hwrites, List.append_nil]
    refine ⟨hme.openSubstream hidle hopened₁ hreturned₁ hsized, ?_⟩
    exact hother.listener_free (by rw [hidle]; rfl) (fun error hended => by cases hidle.symm.trans hended) rfl haccepted₁
      hdelivered₁
  have hfail (error : String) :
      Goes me other askedMe answeredOther (me₁.fail error) other (askedMe ++ me.starts (me₁.fail error)) answeredOther ∧
        Goes other me askedOther answeredMe other (me₁.fail error) askedOther (answeredMe ++ me.writes (me₁.fail error)) :=
    goes_ends hme hother rfl hopened₁ haccepted₁ hevents₁
  unfold SessionWorker.handleOutboundFrame
  split
  · exact hfail _
  · rename_i request hframe
    exact hopen (.announce request) (fromBytes_sized hframe)
  · rename_i request hframe
    exact hopen (.sync request) (fromBytes_sized hframe)
  · exact hfail _
  · exact hfail _

/-- **A move is a step of the calls, in each direction, or none.** -/
theorem exec_goes (hme : Talk me other askedMe answeredOther) (hother : Talk other me askedOther answeredMe)
    (h : me.exec other move = some (me', other')) :
    Goes me other askedMe answeredOther me' other' (askedMe ++ me.starts me') answeredOther ∧
      Goes other me askedOther answeredMe other' me' askedOther (answeredMe ++ me.writes me') ∧
      other'.task = other.task := by
  have hends {error : Option String} (htask : me'.task = .ended error) (hopened : me'.opened = me.opened)
      (haccepted : me'.accepted = me.accepted) (hevents : me'.events = me.events) (hsame : other' = other) :
      Goes me other askedMe answeredOther me' other' (askedMe ++ me.starts me') answeredOther ∧
        Goes other me askedOther answeredMe other' me' askedOther (answeredMe ++ me.writes me') ∧
        other'.task = other.task := by
    subst hsame
    obtain ⟨hout, hin⟩ := goes_ends hme hother htask hopened haccepted hevents
    exact ⟨hout, hin, rfl⟩
  cases move with
  | push command =>
    cases h
    obtain ⟨hstarts, hwrites⟩ := SessionWorker.said_nothing (w := me)
      (rfl : ({ me with commands := me.commands ++ [command] } : SessionWorker).task = me.task)
    rw [hstarts, hwrites, List.append_nil, List.append_nil]
    exact ⟨hme.of_same rfl rfl rfl rfl rfl rfl, hother.of_same rfl rfl rfl rfl rfl rfl, rfl⟩
  | command =>
    simp only [SessionWorker.exec] at h
    split at h
    · rename_i frame me₁ hidle hnext
      cases h
      obtain ⟨hout, hin⟩ := goes_handleOutboundFrame hme hother hidle hnext
      exact ⟨hout, hin, rfl⟩
    · rename_i me₁ hidle hnext
      cases h
      obtain ⟨-, hopened, haccepted, hevents⟩ := nextCommand_quiet hnext
      exact hends rfl hopened haccepted hevents rfl
    · rename_i i retained command me₁ hserve hnext
      cases h
      have hwait := (Prod.eta (me₁.waitForSyncResponse i retained command)).symm
      obtain ⟨-, hopened₁, -, -⟩ := nextCommand_quiet hnext
      obtain ⟨hopened, -, hrests, -⟩ := waitForSyncResponse_inbound hwait
      obtain ⟨hin, hreturned⟩ := hother.waitForSyncResponse hserve hnext hwait
      rw [SessionWorker.starts_of_not_dial hrests, List.append_nil]
      refine ⟨.listener_opened (hme.dialer_rests ?_ ?_ hrests (hopened.trans hopened₁) hreturned) _, hin, rfl⟩
      · intro request stage j hdial
        cases hserve.symm.trans hdial
      · intro error hended
        cases hserve.symm.trans hended
    · cases h
  | accept =>
    simp only [SessionWorker.exec] at h
    split at h
    · rename_i hidle hdeferred
      split_ifs at h with hmore
      cases h
      have hstarts : me.starts { me with task := .listen .header me.accepted, accepted := me.accepted + 1 } = [] :=
        SessionWorker.starts_of_not_dial fun request stage i hdial => by cases hdial
      have hwrites (w : SessionWorker) : me.writes w = [] := SessionWorker.writes_of_free (by rw [hidle]; rfl)
      rw [hstarts, hwrites, List.append_nil, List.append_nil]
      refine ⟨hme.dialer_rests ?_ ?_ ?_ rfl rfl, hother.accept hidle hmore, rfl⟩
      · intro request stage i hdial
        cases hidle.symm.trans hdial
      · intro error hended
        cases hidle.symm.trans hended
      · intro request stage i hdial
        cases hdial
    · cases h
  | read =>
    simp only [SessionWorker.exec] at h
    split at h
    · rename_i request stage i htask
      obtain ⟨⟨packet, opened⟩, hread, heq⟩ := Option.map_eq_some_iff.1 h
      cases heq
      have hdial := (Prod.eta (me.dialRead request i stage packet)).symm
      obtain ⟨-, haccepted, hrest⟩ := dialRead_cases hdial
      obtain ⟨hout, hdelivered⟩ := hme.dialRead htask hread hdial
      have hstarts (w : SessionWorker) : me.starts w = [] := SessionWorker.starts_of_not_idle fun hidle => by
        cases htask.symm.trans hidle
      have hwrites (w : SessionWorker) : me.writes w = [] := SessionWorker.writes_of_free (by rw [htask]; rfl)
      rw [hstarts, hwrites, List.append_nil, List.append_nil]
      refine ⟨hout, hother.listener_free ?_ ?_ ?_ haccepted hdelivered, rfl⟩
      · rw [htask]
        rfl
      · intro error hended
        cases htask.symm.trans hended
      · rcases hrest with ⟨stage', hdial⟩ | hidle | ⟨error, hended⟩
        · rw [hdial]
          rfl
        · rw [hidle]
          rfl
        · rw [hended]
          rfl
    · rename_i stage i htask
      obtain ⟨⟨packet, opened⟩, hread, heq⟩ := Option.map_eq_some_iff.1 h
      cases heq
      have hlisten := (Prod.eta (me.listenRead i stage packet)).symm
      obtain ⟨hopened, -, hrests, -⟩ := listenRead_inbound hlisten
      obtain ⟨hin, hreturned⟩ := hother.listenRead htask hread hlisten
      rw [SessionWorker.starts_of_not_dial hrests, List.append_nil]
      refine ⟨.listener_opened (hme.dialer_rests ?_ ?_ hrests hopened hreturned) _, hin, rfl⟩
      · intro request stage' j hdial
        cases htask.symm.trans hdial
      · intro error hended
        cases htask.symm.trans hended
    · cases h
  | closed =>
    simp only [SessionWorker.exec] at h
    split at h
    · cases h
      exact hends rfl rfl rfl rfl rfl
    · cases h
      exact hends rfl rfl rfl rfl rfl
    · cases h
  | eof =>
    simp only [SessionWorker.exec] at h
    split at h
    · cases h
      exact hends rfl rfl rfl rfl rfl
    · cases h
      exact hends rfl rfl rfl rfl rfl
    · cases h
      exact hends rfl rfl rfl rfl rfl
    · cases h

end Step

/-! ## Runs -/

namespace Recorded

/-- the calls that a side makes -/
def calls (σ : Recorded) : Side → Calls Request Response
  | .left => callsOf σ.pair.left σ.pair.right σ.left.asked σ.right.answered
  | .right => callsOf σ.pair.right σ.pair.left σ.right.asked σ.left.answered

/-- both directions are in order -/
structure Calling (σ : Recorded) : Prop where
  left : Talk σ.pair.left σ.pair.right σ.left.asked σ.right.answered
  right : Talk σ.pair.right σ.pair.left σ.right.asked σ.left.answered
  matched : ∀ side, (σ.calls side).Matched Request.Fits

theorem talk_start (leftLen rightLen : ℕ) (leftPeer rightPeer : PeerId) :
    Talk (.start leftLen leftPeer) (.start rightLen rightPeer) [] [] :=
  .rest (fun _ _ _ hdial => by cases hdial) rfl rfl rfl rfl rfl (.inl rfl)

theorem Calling.step {σ σ' : Recorded} {move : Side × WorkerMove} (hσ : σ.Calling) (h : machine.exec σ move = some σ') :
    σ'.Calling := by
  obtain ⟨side, move⟩ := move
  obtain ⟨pair', hpair, rfl⟩ := Option.map_eq_some_iff.1 h
  cases side with
  | left =>
    obtain ⟨⟨me', other'⟩, hmove, rfl⟩ := Option.map_eq_some_iff.1 hpair
    obtain ⟨hout, hin, hsame⟩ := exec_goes hσ.left hσ.right hmove
    change Calling ⟨⟨me', other'⟩, σ.left.after σ.pair.left me', σ.right.after σ.pair.right other'⟩
    rw [Said.after_same _ hsame]
    refine ⟨hout.1, hin.1, fun side => ?_⟩
    cases side with
    | left => exact (hσ.matched .left).run hout.2
    | right => exact (hσ.matched .right).run hin.2
  | right =>
    obtain ⟨⟨me', other'⟩, hmove, rfl⟩ := Option.map_eq_some_iff.1 hpair
    obtain ⟨hout, hin, hsame⟩ := exec_goes hσ.right hσ.left hmove
    change Calling ⟨⟨other', me'⟩, σ.left.after σ.pair.left other', σ.right.after σ.pair.right me'⟩
    rw [Said.after_same _ hsame]
    refine ⟨hin.1, hout.1, fun side => ?_⟩
    cases side with
    | left => exact (hσ.matched .left).run hin.2
    | right => exact (hσ.matched .right).run hout.2

theorem calling_of_reached {σ : Recorded} (h : machine.Reached (fun _ _ => True) σ) : σ.Calling := by
  refine h.invariant ?_ fun σ move σ' hσ _ hexec => hσ.step hexec
  rintro ⟨pair, left, right⟩ ⟨⟨leftLen, rightLen, leftPeer, rightPeer, rfl⟩, rfl, rfl⟩
  refine ⟨talk_start _ _ _ _, talk_start _ _ _ _, fun side => ?_⟩
  cases side <;> exact Calls.matched_new

end Recorded

/-- **The calls of two sessions match.** In every run of two established sessions, for the calls of either side: the
requests that the other side has passed on to its engine are the first of those that were asked, none left out, repeated or
changed; response `i` that came back is response `i` that was written, and it answers request `i`, which had been passed
on; and at most one request is without a response. -/
theorem calls_match {σ : Recorded} (h : Recorded.machine.Reached (fun _ _ => True) σ) (side : Side) :
    (σ.calls side).delivered <+: (σ.calls side).asked ∧ (σ.calls side).returned <+: (σ.calls side).answered ∧
      (σ.calls side).answered.length ≤ (σ.calls side).delivered.length ∧
      (σ.calls side).asked.length ≤ (σ.calls side).returned.length + 1 ∧
      ∀ (i : ℕ) (response : Response), (σ.calls side).returned[i]? = some response →
        ∃ request : Request, (σ.calls side).asked[i]? = some request ∧ (σ.calls side).delivered[i]? = some request ∧
          request.Fits response := by
  have hmatched := (Recorded.calling_of_reached h).matched side
  refine ⟨hmatched.delivered, hmatched.returned, hmatched.answered, hmatched.one, fun i response hreturned => ?_⟩
  obtain ⟨-, request, hasked, hdelivered, hfits⟩ := hmatched.call hreturned
  exact ⟨request, hasked, hdelivered, hfits⟩

end Calls

section Witness

open Sample

/-- the engine of the left side asks for blocks, and the other's has none -/
def askFirst : SessionCommand := .sendFrame (NetworkMessage.syncRequest ⟨1, 64⟩).toBytes

def answerEmpty : SessionCommand := .sendFrame (NetworkMessage.syncResponse ⟨[], false, none⟩).toBytes

/-- a sync request is answered, and the left side asks again -/
def oneCall : List (Side × WorkerMove) :=
  [(.left, .push askFirst), (.left, .command), (.right, .accept), (.right, .read), (.left, .read), (.right, .read),
    (.left, .read), (.right, .read), (.right, .push answerEmpty), (.right, .command), (.left, .read),
    (.left, .push askFirst), (.left, .command)]

def greetings : Recorded := ⟨⟨.start 1024 peer, .start 1024 peer⟩, .start, .start⟩

def calledOnce : Recorded :=
  (Recorded.machine.replay (fun _ _ => True) oneCall greetings).get (by decide +kernel)

theorem calledOnce_reached : Recorded.machine.Reached (fun _ _ => True) calledOnce :=
  Machine.Reached.of_replay (.start ⟨⟨1024, 1024, peer, peer, rfl⟩, rfl, rfl⟩) (Option.some_get _).symm

/-- the first request has its response, the second is open -/
theorem calls_match_of_oneCall :
    ((calledOnce.calls .left).asked.length = 2 ∧ (calledOnce.calls .left).returned.length = 1) ∧
      ∃ (request : Request) (response : Response), (calledOnce.calls .left).returned[0]? = some response ∧
        (calledOnce.calls .left).delivered[0]? = some request ∧ request.Fits response := by
  have hcounts : (calledOnce.calls .left).asked.length = 2 ∧ (calledOnce.calls .left).returned.length = 1 := by
    decide +kernel
  obtain ⟨response, hreturned⟩ : ∃ response, (calledOnce.calls .left).returned[0]? = some response :=
    ⟨_, List.getElem?_eq_getElem (by rw [hcounts.2]; exact Nat.one_pos)⟩
  obtain ⟨request, -, hdelivered, hfits⟩ := (calls_match calledOnce_reached .left).2.2.2.2 0 response hreturned
  exact ⟨hcounts, request, response, hreturned, hdelivered, hfits⟩

end Witness

end RustProof
