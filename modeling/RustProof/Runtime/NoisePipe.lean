/-
The Noise stream as a byte pipe: one side writes, the other side reads.

The sender calls `poll_write` and `poll_flush` of its stream, the receiver calls `poll_read` of its own, in any order and with
any answers of the inner stream. What the inner stream took from the sender can be read by the receiver at once; that it
comes later, and in which pieces, is in the answers to the receiver. The inner stream may end anywhere (`ends`): the receiver
then gets the bytes before that point and nothing more.

The caller of `poll_write` retries with the same buffer after `Pending`, and does not write again after an error
(`Pipe.Retries`).

Results:
- `noise_stream_is_a_byte_pipe`: what the sender wrote to the inner stream is always a prefix of whole frames; what the
  receiver returned is a prefix of what was accepted and the chunk that is pending, and is all that was accepted when a read
  finds nothing more; the end of the stream is reported in front of a frame only, and an error inside a frame.
-/
import RustProof.Lib.Machine
import RustProof.Runtime.NoiseRead

namespace RustProof

namespace Erp

/-- the side that writes, with what its caller and the inner stream saw -/
structure Sender where
  writer : NoiseWriter
  /-- what the inner stream took -/
  wire : List UInt8
  /-- what `poll_write` reported as written -/
  accepted : List UInt8
  /-- the buffer of a `poll_write` that has not returned `Ok` -/
  outstanding : Option (List UInt8)
  /-- a `poll_write` returned an error -/
  failed : Bool
deriving DecidableEq

/-- the side that reads -/
structure Receiver where
  reader : NoiseReader
  inner : InnerRead
  /-- what `poll_read` returned -/
  returned : List UInt8
deriving DecidableEq

structure Pipe where
  sender : Sender
  receiver : Receiver
deriving DecidableEq

namespace Sender

def new : Sender := ⟨.new, [], [], none, false⟩

/-- a `poll_write` of `buf` came to `g` -/
def wrote (s : Sender) (buf : List UInt8) (g : Sent ℕ) : Sender :=
  let s := { s with writer := g.writer, wire := s.wire ++ g.written }
  match g.poll with
  | .ready (.ok n) => { s with accepted := s.accepted ++ buf.take n, outstanding := none }
  | .ready (.error _) => { s with outstanding := some buf, failed := true }
  | .pending => { s with outstanding := some buf }

theorem wrote_wire (s : Sender) (buf : List UInt8) (g : Sent ℕ) : (s.wrote buf g).wire = s.wire ++ g.written := by
  rw [wrote]
  dsimp only
  split <;> rfl

/-- a `poll_flush` came to `f` -/
def flushed (s : Sender) (f : Sent Unit) : Sender := { s with writer := f.writer, wire := s.wire ++ f.written }

/-- the chunk of the write that has not returned `Ok` -/
def unacked (s : Sender) : List (List UInt8) := s.outstanding.toList.map NoiseWriter.chunk

end Sender

namespace Receiver

def new : Receiver := ⟨.new, ⟨[], [], false⟩, []⟩

/-- bytes arrive, unless the inner stream has ended -/
def arrive (r : Receiver) (bytes : List UInt8) : Receiver :=
  if r.inner.ended then r else { r with inner := { r.inner with left := r.inner.left ++ bytes } }

/-- the inner stream ends after `n` more bytes -/
def ends (r : Receiver) (n : ℕ) : Receiver :=
  { r with inner := { r.inner with left := r.inner.left.take n, ended := true } }

end Receiver

section Pipe

variable [Snow]

namespace Receiver

def read (r : Receiver) (len : ℕ) (answers : List Answer) : NoiseReader × InnerRead × Poll (Except IoError (List UInt8)) :=
  r.reader.pollRead r.inner len answers

def afterRead (r : Receiver) (len : ℕ) (answers : List Answer) : Receiver :=
  let result := r.read len answers
  ⟨result.1, result.2.1, r.returned ++ NoiseReader.returnedBy result.2.2⟩

end Receiver

inductive PipeMove where
  | write (buf : List UInt8) (answers : List Answer)
  | flush (answers : List Answer)
  | read (len : ℕ) (answers : List Answer)
  | ends (n : ℕ)

namespace Pipe

def exec (s : Pipe) : PipeMove → Pipe
  | .write buf answers =>
    let g := s.sender.writer.pollWrite buf answers
    ⟨s.sender.wrote buf g, s.receiver.arrive g.written⟩
  | .flush answers =>
    let f := s.sender.writer.pollFlush answers
    ⟨s.sender.flushed f, s.receiver.arrive f.written⟩
  | .read len answers => ⟨s.sender, s.receiver.afterRead len answers⟩
  | .ends n => ⟨s.sender, s.receiver.ends n⟩

def machine : Machine Pipe PipeMove where
  init s := s = ⟨.new, .new⟩
  exec s m := some (s.exec m)

/-- a write that is pending is retried with the same buffer, and a failed one is the last -/
def Retries (s : Pipe) : PipeMove → Prop
  | .write buf _ => s.sender.failed = false ∧ (s.sender.outstanding = none ∨ s.sender.outstanding = some buf)
  | _ => True

instance : ∀ (s : Pipe) (m : PipeMove), Decidable (s.Retries m)
  | s, .write buf _ =>
    inferInstanceAs (Decidable (s.sender.failed = false ∧ (s.sender.outstanding = none ∨ s.sender.outstanding = some buf)))
  | _, .flush _ => .isTrue trivial
  | _, .read _ _ => .isTrue trivial
  | _, .ends _ => .isTrue trivial

end Pipe

/-! ## The sender -/

namespace Sender

/-- the writes of `acked` were accepted, and the one of `unacked` is under way -/
structure Holds (s : Sender) (acked : List (List UInt8)) : Prop where
  isSealable : ∀ m ∈ acked, Sealable m
  sent : s.writer.sent = (acked ++ s.unacked).length
  wire : s.wire ++ s.writer.unsent = frames (sealedMessages (acked ++ s.unacked))
  written : frames (sealedMessages acked) <+: s.wire
  accepted : s.accepted = acked.flatten
  idle : s.outstanding = none → s.writer.Idle
  pending : s.failed = false → ∀ buf, s.outstanding = some buf →
    buf ≠ [] ∧ s.writer.writePendingConsumed = (NoiseWriter.chunk buf).length

variable {s : Sender} {acked : List (List UInt8)} {buf : List UInt8}

theorem Holds.new : new.Holds [] :=
  ⟨nofun, rfl, rfl, List.prefix_rfl, rfl, fun _ => ⟨rfl, rfl⟩, nofun⟩

theorem Holds.isSealable_all (h : s.Holds acked) : ∀ m ∈ acked ++ s.unacked, Sealable m := by
  intro m hm
  rcases List.mem_append.1 hm with hm | hm
  · exact h.isSealable m hm
  · obtain ⟨buf, -, rfl⟩ := List.mem_map.1 hm
    exact NoiseWriter.sealable_chunk buf

theorem Holds.wire_prefix (h : s.Holds acked) : s.wire <+: frames (sealedMessages (acked ++ s.unacked)) :=
  h.wire ▸ List.prefix_append _ _

/-- all bytes of the frame of `buf` are on the wire or still to be sent: then so it is after the poll -/
theorem Holds.wrote (h : s.Holds acked) (hbuf : buf ≠ []) {rest : List UInt8} {g : Sent ℕ}
    (hwrites : NoiseWriter.Writes buf rest g) (hsent : g.writer.sent = (acked ++ [NoiseWriter.chunk buf]).length)
    (hwire : s.wire ++ rest = frames (sealedMessages (acked ++ [NoiseWriter.chunk buf]))) :
    ∃ acked', (s.wrote buf g).Holds acked' ∧
      acked' ++ (s.wrote buf g).unacked = acked ++ [NoiseWriter.chunk buf] := by
  have hwire' : (s.wire ++ g.written) ++ g.writer.unsent =
      frames (sealedMessages (acked ++ [NoiseWriter.chunk buf])) := by
    rw [List.append_assoc, hwrites.written, hwire]
  have hwritten : frames (sealedMessages acked) <+: s.wire ++ g.written := h.written.trans (List.prefix_append _ _)
  rw [Sender.wrote]
  match hpoll : g.poll with
  | .pending =>
    exact ⟨acked, ⟨h.isSealable, hsent, hwire', hwritten, h.accepted, nofun,
      fun _ buf' hbuf' => Option.some.inj hbuf' ▸ ⟨hbuf, hwrites.pending hpoll⟩⟩, rfl⟩
  | .ready (.error _) => exact ⟨acked, ⟨h.isSealable, hsent, hwire', hwritten, h.accepted, nofun, nofun⟩, rfl⟩
  | .ready (.ok n) =>
    obtain ⟨hidle, hchunk⟩ := hwrites.accepted n hpoll
    have hall := List.append_nil (acked ++ [NoiseWriter.chunk buf])
    refine ⟨acked ++ [NoiseWriter.chunk buf], ⟨?_, ?_, ?_, ?_, ?_, fun _ => hidle, nofun⟩, hall⟩
    · rw [List.forall_mem_append, List.forall_mem_singleton]
      exact ⟨h.isSealable, NoiseWriter.sealable_chunk buf⟩
    · exact hsent.trans (congrArg List.length hall.symm)
    · exact hwire'.trans (congrArg (fun l => frames (sealedMessages l)) hall.symm)
    · rw [← hwire', hidle.unsent_eq, List.append_nil]
    · rw [List.flatten_concat, ← h.accepted]
      exact congrArg (s.accepted ++ ·) hchunk

/-- a poll of the sender keeps `Holds`; the messages are those there were, and perhaps one more -/
theorem Holds.write (h : s.Holds acked) (answers : List Answer) (hfailed : s.failed = false)
    (hretry : s.outstanding = none ∨ s.outstanding = some buf) :
    ∃ acked', (s.wrote buf (s.writer.pollWrite buf answers)).Holds acked' ∧
      acked ++ s.unacked <+: acked' ++ (s.wrote buf (s.writer.pollWrite buf answers)).unacked := by
  rcases hretry with hnone | hsome
  · have hidle := h.idle hnone
    have hunacked : s.unacked = [] := by rw [unacked, hnone]; rfl
    rw [NoiseWriter.pollWrite_of_idle buf answers hidle]
    by_cases hbuf : buf = []
    · have hsame : s.wrote buf (s.writer.pollWriteNew buf answers) = s := by
        rw [NoiseWriter.pollWriteNew, if_pos hbuf, Sender.wrote]
        dsimp only
        rw [List.append_nil, List.take_zero, List.append_nil, ← hnone]
      rw [hsame]
      exact ⟨acked, h, List.prefix_rfl⟩
    · obtain ⟨hwrites, hsent⟩ := NoiseWriter.pollWriteNew_spec answers hidle hbuf
      have hsent₀ := h.sent
      have hwire := h.wire
      rw [hunacked, List.append_nil] at hsent₀ hwire
      rw [hidle.unsent_eq, List.append_nil] at hwire
      rw [hsent₀] at hwrites hsent
      obtain ⟨acked', hholds, hall⟩ := h.wrote hbuf hwrites (by rw [hsent, List.length_append, List.length_singleton])
        (by rw [sealedMessages_append_singleton, frames_append, frames_cons, frames_nil, List.append_nil, hwire])
      refine ⟨acked', hholds, ?_⟩
      rw [hall, hunacked, List.append_nil]
      exact List.prefix_append _ _
  · obtain ⟨hbuf, hconsumed⟩ := h.pending hfailed buf hsome
    have hunacked : s.unacked = [NoiseWriter.chunk buf] := by rw [unacked, hsome]; rfl
    obtain ⟨hwrites, hsent⟩ := NoiseWriter.pollWrite_of_pending answers hbuf hconsumed
    have hsent₀ := h.sent
    have hwire := h.wire
    rw [hunacked] at hsent₀ hwire
    obtain ⟨acked', hholds, hall⟩ := h.wrote hbuf hwrites (hsent.trans hsent₀) hwire
    refine ⟨acked', hholds, ?_⟩
    rw [hall, hunacked]

theorem Holds.flush (h : s.Holds acked) (answers : List Answer) :
    (s.flushed (s.writer.pollFlush answers)).Holds acked := by
  obtain ⟨hwriter, hwritten⟩ := s.writer.pollFlush_spec answers
  obtain ⟨hsent, hconsumed, hunsent, hframe, -⟩ := s.writer.pollFlushPendingFrame_spec answers
  rw [← hwriter] at hsent hconsumed hunsent hframe
  rw [← hwritten] at hunsent
  refine ⟨h.isSealable, hsent.trans h.sent, ?_, h.written.trans (List.prefix_append _ _), h.accepted, ?_, ?_⟩
  · rw [flushed, List.append_assoc, hunsent]
    exact h.wire
  · intro hnone
    exact ⟨hconsumed.trans (h.idle hnone).nothing, hframe (h.idle hnone).frame⟩
  · intro hfailed buf hbuf
    obtain ⟨hne, hlen⟩ := h.pending hfailed buf hbuf
    exact ⟨hne, hconsumed.trans hlen⟩

end Sender

/-! ## The receiver -/

namespace Receiver

/-- the receiver reads what arrives of the wire, on which the frames of the messages are -/
structure Holds (r : Receiver) (wire : List UInt8) (messages : List (List UInt8)) : Prop where
  arrived : r.inner.arrived <+: wire
  running : r.inner.ended = false → r.inner.arrived = wire
  tracks : ∃ opened, opened <+: messages ∧ r.reader.Tracks r.inner.taken r.returned opened

variable {r : Receiver} {wire : List UInt8} {messages : List (List UInt8)}

theorem Holds.new : new.Holds [] [] :=
  ⟨List.prefix_rfl, fun _ => rfl, [], List.prefix_rfl, .new⟩

theorem Holds.arrive (h : r.Holds wire messages) (bytes : List UInt8) {messages' : List (List UInt8)}
    (hmessages : messages <+: messages') : (r.arrive bytes).Holds (wire ++ bytes) messages' := by
  obtain ⟨opened, hopened, htracks⟩ := h.tracks
  rw [Receiver.arrive]
  split_ifs with hended
  · refine ⟨h.arrived.trans (List.prefix_append _ _), ?_, opened, hopened.trans hmessages, htracks⟩
    intro hrunning
    exact nomatch hended.symm.trans hrunning
  · have hall : r.inner.taken ++ (r.inner.left ++ bytes) = wire ++ bytes := by
      rw [← List.append_assoc]
      exact congrArg (· ++ bytes) (h.running (Bool.eq_false_iff.2 hended))
    exact ⟨hall ▸ List.prefix_rfl, fun _ => hall, opened, hopened.trans hmessages, htracks⟩

theorem Holds.ends (h : r.Holds wire messages) (n : ℕ) : (r.ends n).Holds wire messages := by
  refine ⟨?_, nofun, h.tracks⟩
  have hcut : r.inner.taken ++ r.inner.left.take n <+: r.inner.taken ++ r.inner.left :=
    (List.prefix_append_right_inj _).2 (List.take_prefix n _)
  exact hcut.trans h.arrived

/-- every read, with what it returns -/
theorem Holds.polled (h : r.Holds wire messages) (hmessages : ∀ m ∈ messages, Sealable m)
    (hwire : wire <+: frames (sealedMessages messages)) {len : ℕ} (hlen : 0 < len) (answers : List Answer) :
    NoiseReader.Polled (· = []) messages (r.returned ++ NoiseReader.returnedBy (r.read len answers).2.2) answers r.inner
      (r.read len answers) := by
  obtain ⟨opened, hopened, htracks⟩ := h.tracks
  exact NoiseReader.pollRead_spec answers hlen hmessages (h.arrived.trans hwire) hopened htracks

theorem Holds.afterRead (h : r.Holds wire messages) (hmessages : ∀ m ∈ messages, Sealable m)
    (hwire : wire <+: frames (sealedMessages messages)) (len : ℕ) (answers : List Answer) :
    (r.afterRead len answers).Holds wire messages := by
  by_cases hlen : len = 0
  · have hsame : r.afterRead len answers = r := by
      rw [Receiver.afterRead, Receiver.read, NoiseReader.pollRead, if_pos hlen]
      dsimp only
      rw [NoiseReader.returnedBy, List.append_nil]
    rw [hsame]
    exact h
  · obtain ⟨htracks, harrived, hended, -⟩ := h.polled hmessages hwire (Nat.pos_iff_ne_zero.2 hlen) answers
    exact ⟨harrived ▸ h.arrived, fun hrunning => harrived.trans (h.running (hended ▸ hrunning)), htracks⟩

section Outcomes

variable {len : ℕ} {answers : List Answer}

/-- a read that found nothing to return: what arrived is the frames of the messages that were opened and `rest`, and their
plaintext is returned -/
def Drained (r : Receiver) (messages : List (List UInt8)) (rest : List UInt8) : Prop :=
  ∃ opened, opened <+: messages ∧ r.inner.arrived = frames (sealedMessages opened) ++ rest ∧ r.returned = opened.flatten

theorem Drained.framed (hmessages : ∀ m ∈ messages, Sealable m) (h : r.Drained messages []) :
    Framed r.inner.arrived := by
  obtain ⟨opened, hopened, hframes, -⟩ := h
  rw [List.append_nil] at hframes
  exact ⟨_, fits_of_mem_sealedMessages fun m hm => hmessages m (hopened.subset hm), hframes⟩

theorem Drained.of_polled (h : NoiseReader.Polled (· = []) messages
      (r.returned ++ NoiseReader.returnedBy (r.read len answers).2.2) answers r.inner (r.read len answers))
    (hnothing : NoiseReader.returnedBy (r.read len answers).2.2 = []) (hleft : (r.read len answers).2.1.left = [])
    (hdone : (r.read len answers).1.plaintext = []) : r.Drained messages (r.read len answers).1.partialFrame := by
  obtain ⟨⟨opened, hopened, htracks⟩, harrived, -, -⟩ := h
  have hreturned := htracks.returned
  rw [hnothing, hdone, List.append_nil, List.append_nil] at hreturned
  refine ⟨opened, hopened, ?_, hreturned⟩
  rw [← harrived, InnerRead.arrived, hleft, List.append_nil]
  exact htracks.taken

theorem Holds.of_end (h : r.Holds wire messages) (hmessages : ∀ m ∈ messages, Sealable m)
    (hwire : wire <+: frames (sealedMessages messages)) (hlen : 0 < len)
    (hread : (r.read len answers).2.2 = .ready (.ok [])) : r.inner.ended = true ∧ r.Drained messages [] := by
  have hpolled := h.polled hmessages hwire hlen answers
  have houtcome := hpolled.outcome
  rw [hread] at houtcome
  obtain ⟨hended, hleft, hdone, hnone⟩ := houtcome rfl
  refine ⟨hpolled.ended.symm.trans hended, ?_⟩
  rw [← hnone]
  exact Drained.of_polled hpolled (by rw [hread]; rfl) hleft hdone

theorem Holds.of_error (h : r.Holds wire messages) (hmessages : ∀ m ∈ messages, Sealable m)
    (hwire : wire <+: frames (sealedMessages messages)) (hlen : 0 < len) {e : IoError}
    (hread : (r.read len answers).2.2 = .ready (.error e)) :
    .failed e ∈ answers ∨ r.inner.ended = true ∧ ¬ Framed r.inner.arrived ∧ e.kind = .unexpectedEof := by
  obtain ⟨⟨opened, hopened, htracks⟩, harrived, hended, houtcome⟩ := h.polled hmessages hwire hlen answers
  rw [hread] at houtcome
  refine houtcome.imp_right ?_
  rintro ⟨hkind, hend, hleft, hincomplete, hsome⟩
  refine ⟨hended.symm.trans hend, ?_, hkind⟩
  rw [← harrived, InnerRead.arrived, hleft, List.append_nil, htracks.taken]
  exact not_framed_of_incomplete (fits_of_mem_sealedMessages fun m hm => hmessages m (hopened.subset hm)) hincomplete hsome

theorem Holds.of_pending (h : r.Holds wire messages) (hmessages : ∀ m ∈ messages, Sealable m)
    (hwire : wire <+: frames (sealedMessages messages)) (hlen : 0 < len) (heager : NoiseReader.Eager answers r.inner)
    (hread : (r.read len answers).2.2 = .pending) :
    r.inner.ended = false ∧ ∃ rest, Incomplete rest ∧ r.Drained messages rest := by
  have hpolled := h.polled hmessages hwire hlen answers
  have houtcome := hpolled.outcome
  rw [hread] at houtcome
  obtain ⟨hdone, hincomplete, hdry⟩ := houtcome
  obtain ⟨hleft, hrunning⟩ := hdry heager
  refine ⟨hpolled.ended.symm.trans hrunning, _, hincomplete, ?_⟩
  exact Drained.of_polled hpolled (by rw [hread]; rfl) hleft hdone

/-- a read of what arrived, once the inner stream has ended inside a frame -/
theorem Holds.of_inside (h : r.Holds wire messages) (hmessages : ∀ m ∈ messages, Sealable m)
    (hwire : wire <+: frames (sealedMessages messages)) (hlen : 0 < len) (heager : NoiseReader.Eager answers r.inner)
    (hended : r.inner.ended = true) (hinside : ¬ Framed r.inner.arrived) :
    (∃ b bytes, (r.read len answers).2.2 = .ready (.ok (b :: bytes))) ∨
      ∃ message, (r.read len answers).2.2 = .ready (.error ⟨.unexpectedEof, message⟩) := by
  match hread : (r.read len answers).2.2 with
  | .pending =>
    obtain ⟨hrunning, -⟩ := h.of_pending hmessages hwire hlen heager hread
    exact nomatch hended.symm.trans hrunning
  | .ready (.ok []) => exact absurd ((h.of_end hmessages hwire hlen hread).2.framed hmessages) hinside
  | .ready (.ok (b :: bytes)) => exact .inl ⟨b, bytes, rfl⟩
  | .ready (.error ⟨kind, message⟩) =>
    rcases h.of_error hmessages hwire hlen hread with hfailed | ⟨-, -, rfl⟩
    · obtain ⟨n, hn⟩ := heager.1 _ hfailed
      exact nomatch hn
    · exact .inr ⟨message, rfl⟩

end Outcomes

end Receiver

/-! ## The pipe -/

namespace Pipe

/-- what a run keeps -/
def Holds (s : Pipe) : Prop :=
  ∃ acked, s.sender.Holds acked ∧ s.receiver.Holds s.sender.wire (acked ++ s.sender.unacked)

theorem Holds.exec {s : Pipe} {m : PipeMove} (h : s.Holds) (hm : s.Retries m) : (s.exec m).Holds := by
  obtain ⟨acked, hsender, hreceiver⟩ := h
  cases m with
  | write buf answers =>
    obtain ⟨acked', hsender', hmessages⟩ := hsender.write answers hm.1 hm.2
    refine ⟨acked', hsender', ?_⟩
    rw [Pipe.exec]
    dsimp only
    rw [Sender.wrote_wire]
    exact hreceiver.arrive _ hmessages
  | flush answers =>
    exact ⟨acked, hsender.flush answers, hreceiver.arrive _ List.prefix_rfl⟩
  | read len answers =>
    exact ⟨acked, hsender, hreceiver.afterRead hsender.isSealable_all hsender.wire_prefix len answers⟩
  | ends n => exact ⟨acked, hsender, hreceiver.ends n⟩

theorem holds_of_reached {s : Pipe} (h : machine.Reached Retries s) : s.Holds := by
  apply h.invariant
  · rintro s rfl
    exact ⟨[], .new, .new⟩
  · intro s m s' hs hm hexec
    cases hexec
    exact hs.exec hm

/-- a receiver that took the whole wire and has nothing in hand has returned all that was accepted -/
theorem accepted_prefix {s : Sender} {r : Receiver} {acked : List (List UInt8)} {rest : List UInt8} (h : s.Holds acked)
    (hdrained : r.Drained (acked ++ s.unacked) rest) (hrest : Incomplete rest) (harrived : r.inner.arrived = s.wire) :
    s.accepted <+: r.returned := by
  obtain ⟨opened, hopened, hframes, hreturned⟩ := hdrained
  have hacked : acked <+: acked ++ s.unacked := List.prefix_append _ _
  have htake : ∀ {l : List (List UInt8)}, l <+: acked ++ s.unacked →
      (sealedMessages (acked ++ s.unacked)).take l.length = sealedMessages l := by
    intro l hl
    have hfront := List.prefix_iff_eq_take.1 (sealedMessages_mono hl)
    rw [length_sealedMessages] at hfront
    exact hfront.symm
  have hwritten := h.written
  rw [← harrived, hframes, ← htake hacked, ← htake hopened] at hwritten
  have hle := length_le_of_frames_prefix (fits_of_mem_sealedMessages h.isSealable_all) hrest
    (by rw [length_sealedMessages]; exact hacked.length_le) hwritten
  rw [h.accepted, hreturned]
  exact (List.prefix_of_prefix_length_le hacked hopened hle).flatten

/-- **The Noise stream is a byte pipe.** In every state of every run, the bytes on the wire are a prefix of whole frames, and
what was returned is a prefix of what was accepted and the chunk that is not acknowledged. Of every next read:
- `Ok(0)` says that the inner stream ended in front of a frame, and then nothing that arrived is lost;
- an error is one of the inner stream, or says that this ended inside a frame;
- if the inner stream answers all reads, a read after an end inside a frame returns what is left before it or the error,
  and a read that still is `Pending` says that everything accepted was returned. -/
theorem noise_stream_is_a_byte_pipe {s : Pipe} (h : machine.Reached Retries s) :
    (∃ ciphertexts : List (List UInt8), (∀ c ∈ ciphertexts, c.length ≤ maxNoiseFrameLen) ∧
      s.sender.wire <+: frames ciphertexts) ∧
    s.receiver.returned <+: s.sender.accepted ++ s.sender.unacked.flatten ∧
    ∀ (len : ℕ) (answers : List Answer), 0 < len →
      ((s.receiver.read len answers).2.2 = .ready (.ok []) →
        s.receiver.inner.ended = true ∧ Framed s.receiver.inner.arrived ∧
        (s.receiver.inner.arrived = s.sender.wire → s.sender.accepted <+: s.receiver.returned)) ∧
      (∀ e, (s.receiver.read len answers).2.2 = .ready (.error e) →
        .failed e ∈ answers ∨
        (s.receiver.inner.ended = true ∧ ¬ Framed s.receiver.inner.arrived ∧ e.kind = .unexpectedEof)) ∧
      (NoiseReader.Eager answers s.receiver.inner →
        (s.receiver.inner.ended = true → ¬ Framed s.receiver.inner.arrived →
          (∃ b bytes, (s.receiver.read len answers).2.2 = .ready (.ok (b :: bytes))) ∨
          ∃ message, (s.receiver.read len answers).2.2 = .ready (.error ⟨.unexpectedEof, message⟩)) ∧
        ((s.receiver.read len answers).2.2 = .pending → s.sender.accepted <+: s.receiver.returned)) := by
  obtain ⟨acked, hsender, hreceiver⟩ := holds_of_reached h
  have hall := hsender.isSealable_all
  have hwire := hsender.wire_prefix
  refine ⟨⟨_, fun c hc => length_le_of_mem_sealedMessages hall hc, hwire⟩, ?_, ?_⟩
  · obtain ⟨opened, hopened, htracks⟩ := hreceiver.tracks
    rw [hsender.accepted, ← List.flatten_append]
    exact (htracks.returned ▸ List.prefix_append _ _ : s.receiver.returned <+: opened.flatten).trans hopened.flatten
  · intro len answers hlen
    refine ⟨?_, fun e => hreceiver.of_error hall hwire hlen, ?_⟩
    · intro hread
      obtain ⟨hended, hdrained⟩ := hreceiver.of_end hall hwire hlen hread
      exact ⟨hended, hdrained.framed hall, accepted_prefix hsender hdrained incomplete_nil⟩
    · intro heager
      refine ⟨hreceiver.of_inside hall hwire hlen heager, ?_⟩
      intro hread
      obtain ⟨hrunning, rest, hrest, hdrained⟩ := hreceiver.of_pending hall hwire hlen heager hread
      exact accepted_prefix hsender hdrained hrest (hreceiver.running hrunning)

end Pipe

end Pipe

section Witness

/-! ### A write with a flush between its attempts, and an end inside a frame -/

/-- sixteen bytes for the nonce -/
def tag (k : ℕ) : List UInt8 := List.replicate 16 (UInt8.ofNat k)

/-- the tag is checked, and nothing is hidden -/
@[reducible] def tagged : Snow where
  writeMessage k p := if p.length + 16 ≤ 65535 then .ok (p ++ tag k) else .error "input error"
  readMessage k c := if c.drop (c.length - 16) = tag k then .ok (c.take (c.length - 16)) else .error "decrypt error"
  write_message k p h := ⟨p ++ tag k, if_pos h, by rw [List.length_append, tag, List.length_replicate]⟩
  read_write k p c h := by
    split_ifs at h
    cases h
    have hlen : (p ++ tag k).length - 16 = p.length := by rw [List.length_append, tag, List.length_replicate]; omega
    rw [hlen, List.drop_left, List.take_left, if_pos rfl]

/-- the first write stops after four bytes, a flush sends the rest of its frame, and the retry returns; then the inner stream
ends inside the second frame -/
def interrupted : Pipe :=
  letI := tagged
  (Pipe.machine.replay Pipe.Retries
    [.write [1, 2, 3] [.ready 4, .pending], .read 10 [.ready 0, .ready 9], .flush [.ready 100, .pending],
      .read 2 [.ready 5, .ready 100], .write [1, 2, 3] [.ready 0], .write [7] [.ready 100, .ready 0], .ends 5, .read 10 []]
    ⟨.new, .new⟩).get (by decide +kernel)

theorem interrupted_reached :
    letI := tagged
    Pipe.machine.Reached Pipe.Retries interrupted :=
  letI := tagged
  Machine.Reached.of_replay (.start rfl) (Option.some_get _).symm

theorem noise_stream_is_a_byte_pipe_of_interrupted :
    letI := tagged
    interrupted.sender.accepted = [1, 2, 3, 7] ∧ interrupted.receiver.returned = [1, 2, 3] ∧
    interrupted.receiver.returned <+: interrupted.sender.accepted ++ interrupted.sender.unacked.flatten ∧
    ¬ Framed interrupted.receiver.inner.arrived := by
  obtain ⟨-, hreturned, hreads⟩ := @Pipe.noise_stream_is_a_byte_pipe tagged _ interrupted_reached
  have hread : (@Receiver.read tagged interrupted.receiver 10 [.ready 9, .ready 9, .ready 9]).2.2 =
      .ready (.error ⟨.unexpectedEof, "noise frame ended while reading ciphertext"⟩) := by decide +kernel
  have hfailed : ∀ e, Answer.failed e ∉ [.ready 9, .ready 9, .ready 9] := by simp
  obtain ⟨-, hinside, -⟩ := ((hreads 10 _ (by decide)).2.1 _ hread).resolve_left (hfailed _)
  exact ⟨by decide +kernel, by decide +kernel, hreturned, hinside⟩

end Witness

end Erp

end RustProof
