/-
The Noise stream of erp-runtime (`transport/noise.rs`): plaintext in frames of ciphertext over an inner stream.

Both halves of a `NoiseStream` can be left in the middle of a frame by a `Pending` of the inner stream and go on from there
with the next poll. What the inner stream answers to the calls of one poll is a list (`Answer`); when the list is used up the
next call is `Pending`. The two halves have no field in common, so each is a state of its own. The cipher states are those of
the crate `snow`: a parameter with the two laws of its documentation, where the nonce counts the messages.

Results about the writing half:
- `pollFlushPendingFrame_spec`: what the inner stream took and what is left of the frame is what was left before;
- `pollWriteNew_spec`, `pollWrite_of_pending`: a message is encrypted once, and a retry sends what is left of its frame.
-/
import RustProof.Lib.Frames
import RustProof.Runtime.Registry

namespace RustProof

/-- the two cipher states of a `snow::TransportState`, at the nonce of a message -/
class Snow where
  /-- the ciphertext, or the text of the error -/
  writeMessage : ℕ → List UInt8 → Except String (List UInt8)
  /-- the plaintext, or the text of the error -/
  readMessage : ℕ → List UInt8 → Except String (List UInt8)
  /-- a message of at most 65535 bytes with its tag is encrypted, and gets longer by the tag -/
  write_message : ∀ k p, p.length + 16 ≤ 65535 → ∃ c, writeMessage k p = .ok c ∧ c.length = p.length + 16
  read_write : ∀ k p c, writeMessage k p = .ok c → readMessage k c = .ok p

export Snow (writeMessage readMessage)

namespace Erp

/-! ## The inner stream -/

inductive Poll (α : Type) where
  | pending
  | ready (a : α)
deriving DecidableEq, Repr

/-- what the inner stream answers to a call: `Pending`, `n` bytes if there are as many, or an error -/
inductive Answer where
  | pending
  | ready (n : ℕ)
  | failed (e : IoError)
deriving DecidableEq, Repr

/-- `poll_write` of the inner stream: how many of the bytes it takes -/
def Answer.pollWrite (bytes : List UInt8) : Answer → Poll (Except IoError ℕ)
  | .pending => .pending
  | .ready n => .ready (.ok (min n bytes.length))
  | .failed e => .ready (.error e)

/-- `poll_flush` of the inner stream -/
def Answer.pollFlush : Answer → Poll (Except IoError Unit)
  | .pending => .pending
  | .ready _ => .ready (.ok ())
  | .failed e => .ready (.error e)

/-- the reading end of the inner stream: what was read, what is there to be read, and whether nothing follows it -/
structure InnerRead where
  taken : List UInt8
  left : List UInt8
  ended : Bool
deriving DecidableEq

namespace InnerRead

/-- `poll_read` of the inner stream into a buffer of `room` bytes: at least one byte, as long as there is one. Without one,
`Ok(0)` at the end and `Pending` before it. -/
def pollRead (i : InnerRead) (room : ℕ) : Answer → InnerRead × Poll (Except IoError (List UInt8))
  | .pending => (i, .pending)
  | .ready n =>
    let bytes := i.left.take (min (n + 1) room)
    if bytes = [] ∧ i.ended = false then (i, .pending)
    else ({ i with taken := i.taken ++ bytes, left := i.left.drop bytes.length }, .ready (.ok bytes))
  | .failed e => (i, .ready (.error e))

/-- all that the inner stream gives, up to now -/
def arrived (i : InnerRead) : List UInt8 := i.taken ++ i.left

theorem pollRead_cases (i : InnerRead) {room : ℕ} (hroom : 0 < room) (a : Answer) :
    (i.pollRead room a = (i, .pending) ∧ ∀ n, a = .ready n → i.left = [] ∧ i.ended = false) ∨
    (∃ e, a = .failed e ∧ i.pollRead room a = (i, .ready (.error e))) ∨
    (i.left = [] ∧ i.ended = true ∧ i.pollRead room a = (i, .ready (.ok []))) ∨
    ∃ b bytes rest, i.left = (b :: bytes) ++ rest ∧ (b :: bytes).length ≤ room ∧
      i.pollRead room a = (⟨i.taken ++ b :: bytes, rest, i.ended⟩, .ready (.ok (b :: bytes))) := by
  cases a with
  | pending => exact .inl ⟨rfl, nofun⟩
  | failed e => exact .inr (.inl ⟨e, rfl, rfl⟩)
  | ready n =>
    obtain ⟨taken, left, ended⟩ := i
    cases left with
    | nil =>
      cases ended with
      | false => exact .inl ⟨if_pos ⟨List.take_nil, rfl⟩, fun _ _ => ⟨rfl, rfl⟩⟩
      | true =>
        refine .inr (.inr (.inl ⟨rfl, rfl, ?_⟩))
        rw [pollRead, if_neg (fun h => nomatch h.2)]
        dsimp only
        rw [List.take_nil, List.append_nil, List.drop_nil]
    | cons b left =>
      obtain ⟨k, hk⟩ : ∃ k, min (n + 1) room = k + 1 := ⟨min (n + 1) room - 1, by omega⟩
      refine .inr (.inr (.inr ⟨b, left.take k, left.drop k, ?_, ?_, ?_⟩))
      · rw [List.cons_append, List.take_append_drop]
      · rw [List.length_cons, List.length_take]
        omega
      · rw [pollRead]
        dsimp only
        rw [hk, List.take_succ_cons, if_neg (fun h => nomatch h.1), List.length_cons, List.drop_succ_cons, List.length_take,
          ← List.drop_eq_drop_min]

end InnerRead

section Noise

variable [Snow]

/-- `NOISE_TAG_LEN` -/
def noiseTagLen : ℕ := 16

/-- `MAX_NOISE_FRAME_LEN` -/
def maxNoiseFrameLen : ℕ := 65535

/-- `MAX_NOISE_PLAINTEXT_LEN` -/
def maxNoisePlaintextLen : ℕ := maxNoiseFrameLen - noiseTagLen

def noiseToIoError (error : String) : IoError := ⟨.invalidData, "noise transport error: " ++ error⟩

/-! ## Writing -/

/-- the writing half of a `NoiseStream` -/
structure NoiseWriter where
  /-- messages that the session encrypted -/
  sent : ℕ
  writeFrame : List UInt8
  writeFramePos : ℕ
  writePendingConsumed : ℕ
deriving DecidableEq

/-- what a poll of the writing half leaves and returns, and what it had the inner stream do -/
structure Sent (α : Type) where
  writer : NoiseWriter
  written : List UInt8
  answers : List Answer
  poll : Poll (Except IoError α)

namespace NoiseWriter

def new : NoiseWriter := ⟨0, [], 0, 0⟩

def queueEncryptedFrame (w : NoiseWriter) (plaintext : List UInt8) : NoiseWriter × Except IoError ℕ :=
  let plaintextLen := min plaintext.length maxNoisePlaintextLen
  match writeMessage w.sent (plaintext.take plaintextLen) with
  | .error e => (w, .error (noiseToIoError e))
  | .ok ciphertext =>
    ({ w with sent := w.sent + 1, writeFrame := u16ToBe (UInt16.ofNat ciphertext.length) ++ ciphertext, writeFramePos := 0 },
      .ok plaintextLen)

def pollFlushPendingFrame (w : NoiseWriter) : List Answer → Sent Unit
  | [] => ⟨w, [], [], .pending⟩
  | a :: answers =>
    if w.writeFramePos < w.writeFrame.length then
      let rest := w.writeFrame.drop w.writeFramePos
      match a.pollWrite rest with
      | .ready (.ok 0) => ⟨w, [], answers, .ready (.error ⟨.writeZero, "failed to flush buffered noise frame"⟩)⟩
      | .ready (.ok (n + 1)) =>
        let f := pollFlushPendingFrame { w with writeFramePos := w.writeFramePos + (n + 1) } answers
        { f with written := rest.take (n + 1) ++ f.written }
      | .ready (.error e) => ⟨w, [], answers, .ready (.error e)⟩
      | .pending => ⟨w, [], answers, .pending⟩
    else
      match a.pollFlush with
      | .ready (.ok ()) => ⟨{ w with writeFrame := [], writeFramePos := 0 }, [], answers, .ready (.ok ())⟩
      | .ready (.error e) => ⟨w, [], answers, .ready (.error e)⟩
      | .pending => ⟨w, [], answers, .pending⟩

/-- `poll_write` once no older frame is left -/
def pollWriteNew (w : NoiseWriter) (buf : List UInt8) (answers : List Answer) : Sent ℕ :=
  if buf = [] then ⟨w, [], answers, .ready (.ok 0)⟩
  else
    match w.queueEncryptedFrame buf with
    | (w, .error e) => ⟨w, [], answers, .ready (.error e)⟩
    | (w, .ok consumed) =>
      let f := w.pollFlushPendingFrame answers
      match f.poll with
      | .ready (.ok ()) => ⟨f.writer, f.written, f.answers, .ready (.ok consumed)⟩
      | .ready (.error e) => ⟨f.writer, f.written, f.answers, .ready (.error e)⟩
      | .pending => ⟨{ f.writer with writePendingConsumed := consumed }, f.written, f.answers, .pending⟩

def pollWrite (w : NoiseWriter) (buf : List UInt8) (answers : List Answer) : Sent ℕ :=
  if w.writePendingConsumed > 0 then
    let f := w.pollFlushPendingFrame answers
    match f.poll with
    | .ready (.ok ()) =>
      ⟨{ f.writer with writePendingConsumed := 0 }, f.written, f.answers, .ready (.ok f.writer.writePendingConsumed)⟩
    | .ready (.error e) => ⟨{ f.writer with writePendingConsumed := 0 }, f.written, f.answers, .ready (.error e)⟩
    | .pending => ⟨f.writer, f.written, f.answers, .pending⟩
  else if w.writeFrame ≠ [] then
    let f := w.pollFlushPendingFrame answers
    match f.poll with
    | .ready (.ok ()) =>
      let g := f.writer.pollWriteNew buf f.answers
      { g with written := f.written ++ g.written }
    | .ready (.error e) => ⟨f.writer, f.written, f.answers, .ready (.error e)⟩
    | .pending => ⟨f.writer, f.written, f.answers, .pending⟩
  else w.pollWriteNew buf answers

def pollFlush (w : NoiseWriter) (answers : List Answer) : Sent Unit :=
  let f := w.pollFlushPendingFrame answers
  match f.poll, f.answers with
  | .ready (.ok ()), [] => { f with poll := .pending }
  | .ready (.ok ()), a :: answers => { f with answers := answers, poll := a.pollFlush }
  | _, _ => f

end NoiseWriter

/-! ## Reading -/

/-- the reading half of a `NoiseStream` -/
structure NoiseReader where
  /-- messages that the session decrypted -/
  received : ℕ
  readLenBuf : List UInt8
  readLenPos : ℕ
  readFrameLen : Option ℕ
  readEncrypted : List UInt8
  readEncryptedPos : ℕ
  readPlaintext : List UInt8
  readPlaintextPos : ℕ
deriving DecidableEq

/-- a buffer into which bytes were read from `pos` on -/
def fill (buf : List UInt8) (pos : ℕ) (bytes : List UInt8) : List UInt8 :=
  buf.take pos ++ bytes ++ buf.drop (pos + bytes.length)

namespace NoiseReader

def new : NoiseReader := ⟨0, [0, 0], 0, none, [], 0, [], 0⟩

/-- the length prefix is complete -/
def openFrame (r : NoiseReader) : NoiseReader :=
  let frameLen := (u16OfBe r.readLenBuf).toNat
  { r with readFrameLen := some frameLen, readEncrypted := List.replicate frameLen 0, readEncryptedPos := 0 }

/-- the ciphertext is complete -/
def decryptFrame (r : NoiseReader) : NoiseReader × Except IoError Unit :=
  match readMessage r.received r.readEncrypted with
  | .error e => (r, .error (noiseToIoError e))
  | .ok plaintext =>
    ({ received := r.received + 1, readLenBuf := r.readLenBuf, readLenPos := 0, readFrameLen := none, readEncrypted := [],
       readEncryptedPos := 0, readPlaintext := plaintext, readPlaintextPos := 0 }, .ok ())

/-- the loop of `poll_fill_plaintext` up to where it returns or reads from the inner stream. After a message without
plaintext the loop starts again, and then reads at once: nothing of the next frame is there yet. -/
def advance (r : NoiseReader) : NoiseReader × Except IoError Unit :=
  if r.readPlaintextPos < r.readPlaintext.length then (r, .ok ())
  else
    let r := { r with readPlaintext := [], readPlaintextPos := 0 }
    let r := if r.readFrameLen = none ∧ ¬ r.readLenPos < r.readLenBuf.length then r.openFrame else r
    match r.readFrameLen with
    | none => (r, .ok ())
    | some frameLen => if r.readEncryptedPos < frameLen then (r, .ok ()) else r.decryptFrame

/-- the bytes that the next read from the inner stream asks for -/
def room (r : NoiseReader) : ℕ :=
  match r.readFrameLen with
  | none => r.readLenBuf.length - r.readLenPos
  | some frameLen => frameLen - r.readEncryptedPos

/-- what the read gives, when it gives something -/
def absorb (r : NoiseReader) (bytes : List UInt8) : NoiseReader :=
  match r.readFrameLen with
  | none =>
    { r with readLenBuf := fill r.readLenBuf r.readLenPos bytes, readLenPos := r.readLenPos + bytes.length }
  | some _ =>
    { r with
      readEncrypted := fill r.readEncrypted r.readEncryptedPos bytes
      readEncryptedPos := r.readEncryptedPos + bytes.length }

/-- what is returned when the read gives `Ok(0)` -/
def atEnd (r : NoiseReader) : Except IoError Bool :=
  match r.readFrameLen with
  | none =>
    if r.readLenPos = 0 then .ok false else .error ⟨.unexpectedEof, "noise frame ended while reading length prefix"⟩
  | some _ => .error ⟨.unexpectedEof, "noise frame ended while reading ciphertext"⟩

/-- the plaintext that is not returned yet -/
def plaintext (r : NoiseReader) : List UInt8 := r.readPlaintext.drop r.readPlaintextPos

def pollFillPlaintext (r : NoiseReader) (i : InnerRead) (answers : List Answer) :
    NoiseReader × InnerRead × Poll (Except IoError Bool) :=
  match r.advance with
  | (r, .error e) => (r, i, .ready (.error e))
  | (r, .ok ()) =>
    if r.readPlaintextPos < r.readPlaintext.length then (r, i, .ready (.ok true))
    else
      match answers with
      | [] => (r, i, .pending)
      | a :: answers =>
        match i.pollRead r.room a with
        | (i, .pending) => (r, i, .pending)
        | (i, .ready (.error e)) => (r, i, .ready (.error e))
        | (i, .ready (.ok [])) => (r, i, .ready r.atEnd)
        | (i, .ready (.ok (b :: bytes))) => pollFillPlaintext (r.absorb (b :: bytes)) i answers

/-- `poll_read` into a buffer of `len` bytes; `Ok` has the bytes it wrote there -/
def pollRead (r : NoiseReader) (i : InnerRead) (len : ℕ) (answers : List Answer) :
    NoiseReader × InnerRead × Poll (Except IoError (List UInt8)) :=
  if len = 0 then (r, i, .ready (.ok []))
  else
    match r.pollFillPlaintext i answers with
    | (r, i, .pending) => (r, i, .pending)
    | (r, i, .ready (.error e)) => (r, i, .ready (.error e))
    | (r, i, .ready (.ok false)) => (r, i, .ready (.ok []))
    | (r, i, .ready (.ok true)) =>
      let bytes := r.plaintext.take (min r.plaintext.length len)
      let pos := r.readPlaintextPos + bytes.length
      let r :=
        if pos = r.readPlaintext.length then { r with readPlaintext := [], readPlaintextPos := 0 }
        else { r with readPlaintextPos := pos }
      (r, i, .ready (.ok bytes))

end NoiseReader

end Noise

/-! ## Messages -/

/-- the plaintext of a message that the session encrypts -/
def Sealable (message : List UInt8) : Prop := message.length ≤ maxNoisePlaintextLen

section Messages

variable [Snow]

/-- the ciphertext of the k-th message -/
def ciphertext (k : ℕ) (message : List UInt8) : List UInt8 :=
  match writeMessage k message with
  | .ok c => c
  | .error _ => []

theorem writeMessage_eq {message : List UInt8} (k : ℕ) (h : Sealable message) :
    writeMessage k message = .ok (ciphertext k message) ∧ (ciphertext k message).length = message.length + noiseTagLen := by
  obtain ⟨c, hc, hlen⟩ := Snow.write_message k message (by
    rw [Sealable, maxNoisePlaintextLen, maxNoiseFrameLen, noiseTagLen] at h
    omega)
  rw [ciphertext, hc]
  exact ⟨rfl, hlen⟩

/-- the ciphertexts of the messages of a session -/
def sealedMessages (messages : List (List UInt8)) : List (List UInt8) := messages.mapIdx ciphertext

@[simp] theorem length_sealedMessages (messages : List (List UInt8)) :
    (sealedMessages messages).length = messages.length := List.length_mapIdx

theorem sealedMessages_append_singleton (messages : List (List UInt8)) (message : List UInt8) :
    sealedMessages (messages ++ [message]) = sealedMessages messages ++ [ciphertext messages.length message] :=
  List.mapIdx_concat

theorem sealedMessages_mono {l l' : List (List UInt8)} (h : l <+: l') : sealedMessages l <+: sealedMessages l' := by
  obtain ⟨rest, rfl⟩ := h
  rw [sealedMessages, sealedMessages, List.mapIdx_append]
  exact List.prefix_append _ _

/-- a frame holds at most `u16::MAX` bytes of ciphertext -/
theorem length_le_of_mem_sealedMessages {messages : List (List UInt8)} (h : ∀ m ∈ messages, Sealable m)
    {c : List UInt8} (hc : c ∈ sealedMessages messages) : c.length ≤ maxNoiseFrameLen := by
  obtain ⟨k, hk, rfl⟩ := List.mem_mapIdx.1 hc
  have hm := h _ (List.getElem_mem hk)
  rw [(writeMessage_eq k hm).2]
  rw [Sealable, maxNoisePlaintextLen, maxNoiseFrameLen, noiseTagLen] at hm
  rw [maxNoiseFrameLen, noiseTagLen]
  omega

theorem fits_of_mem_sealedMessages {messages : List (List UInt8)} (h : ∀ m ∈ messages, Sealable m) :
    ∀ c ∈ sealedMessages messages, Fits c := by
  intro c hc
  have hlen := length_le_of_mem_sealedMessages h hc
  rw [maxNoiseFrameLen] at hlen
  rw [Fits]
  omega

/-- behind the messages `opened` stands one more frame: it is that of the next message -/
theorem exists_next_message {messages opened : List (List UInt8)} {header bytes : List UInt8}
    (hmessages : ∀ m ∈ messages, Sealable m) (hopened : opened <+: messages) (hheader : header.length = 2)
    (hbytes : bytes.length = (u16OfBe header).toNat)
    (h : frames (sealedMessages opened) ++ (header ++ bytes) <+: frames (sealedMessages messages)) :
    ∃ message, opened ++ [message] <+: messages ∧ bytes = ciphertext opened.length message ∧
      header ++ bytes = frame bytes := by
  have hfits := fits_of_mem_sealedMessages hmessages
  obtain ⟨tail, rfl⟩ := hopened
  rw [sealedMessages, sealedMessages, List.mapIdx_append, frames_append, List.prefix_append_right_inj] at h
  rw [sealedMessages, List.mapIdx_append] at hfits
  obtain ⟨hframe, rest, hrest⟩ := frames_eq_of_prefix (fun b hb => hfits b (List.mem_append_right _ hb)) hheader hbytes h
  cases tail with
  | nil => exact nomatch hrest
  | cons message tail =>
    rw [List.mapIdx_cons] at hrest
    obtain ⟨hmessage, -⟩ := List.cons.inj hrest
    rw [Nat.zero_add] at hmessage
    refine ⟨message, ?_, hmessage.symm, hframe⟩
    rw [List.append_cons opened message tail]
    exact List.prefix_append _ _

end Messages

/-! ## What a poll of the writer does -/

namespace NoiseWriter

/-- the bytes of the frame that the inner stream has not taken -/
def unsent (w : NoiseWriter) : List UInt8 := w.writeFrame.drop w.writeFramePos

/-- no message is on its way -/
structure Idle (w : NoiseWriter) : Prop where
  nothing : w.writePendingConsumed = 0
  frame : w.writeFrame = []

theorem Idle.unsent_eq {w : NoiseWriter} (h : w.Idle) : w.unsent = [] := by
  rw [unsent, h.frame, List.drop_nil]

/-- `f` is what flushing the frame of `w` comes to -/
structure Flushes (w : NoiseWriter) (f : Sent Unit) : Prop where
  sent : f.writer.sent = w.sent
  consumed : f.writer.writePendingConsumed = w.writePendingConsumed
  written : f.written ++ f.writer.unsent = w.unsent
  frame : w.writeFrame = [] → f.writer.writeFrame = []
  done : f.poll = .ready (.ok ()) → f.writer.writeFrame = []

/-- the inner stream took nothing -/
theorem Flushes.stopped (w : NoiseWriter) (answers : List Answer) {poll : Poll (Except IoError Unit)}
    (h : poll ≠ .ready (.ok ())) : w.Flushes ⟨w, [], answers, poll⟩ :=
  ⟨rfl, rfl, rfl, id, fun hpoll => absurd hpoll h⟩

theorem pollFlushPendingFrame_spec (w : NoiseWriter) (answers : List Answer) :
    w.Flushes (w.pollFlushPendingFrame answers) := by
  -- every write of the inner stream uses up an answer
  induction answers generalizing w with
  | nil => exact .stopped w [] nofun
  | cons a answers ih =>
    rw [pollFlushPendingFrame]
    split_ifs with hpos
    · dsimp only
      split
      · exact .stopped w answers nofun
      · rename_i n _
        obtain ⟨hsent, hconsumed, hwritten, hframe, hdone⟩ :=
          ih { w with writeFramePos := w.writeFramePos + (n + 1) }
        refine ⟨hsent, hconsumed, ?_, hframe, hdone⟩
        dsimp only
        rw [List.append_assoc, hwritten, unsent, unsent, ← List.drop_drop, List.take_append_drop]
      · exact .stopped w answers nofun
      · exact .stopped w answers nofun
    · have hall : w.unsent = [] := List.drop_eq_nil_of_le (Nat.le_of_not_lt hpos)
      cases a with
      | pending => exact .stopped w answers nofun
      | failed e => exact .stopped w answers nofun
      | ready n => exact ⟨rfl, rfl, hall.symm, fun _ => rfl, fun _ => rfl⟩

theorem pollFlush_spec (w : NoiseWriter) (answers : List Answer) :
    (w.pollFlush answers).writer = (w.pollFlushPendingFrame answers).writer ∧
      (w.pollFlush answers).written = (w.pollFlushPendingFrame answers).written := by
  rw [pollFlush]
  split <;> exact ⟨rfl, rfl⟩

/-- the plaintext of a `poll_write` that goes into its message -/
def chunk (buf : List UInt8) : List UInt8 := buf.take maxNoisePlaintextLen

/-- `g` is what a `poll_write` of `buf` comes to, if the writer has to send `frame` for it -/
structure Writes (buf frame : List UInt8) (g : Sent ℕ) : Prop where
  written : g.written ++ g.writer.unsent = frame
  accepted : ∀ n, g.poll = .ready (.ok n) → g.writer.Idle ∧ buf.take n = chunk buf
  pending : g.poll = .pending → g.writer.writePendingConsumed = (chunk buf).length

theorem length_chunk (buf : List UInt8) : (chunk buf).length = min buf.length maxNoisePlaintextLen := by
  rw [chunk, List.length_take, Nat.min_comm]

theorem take_length_chunk (buf : List UInt8) : buf.take (chunk buf).length = chunk buf := by
  rw [length_chunk, chunk, List.take_eq_take_iff]
  omega

theorem sealable_chunk (buf : List UInt8) : Sealable (chunk buf) := by
  rw [Sealable, length_chunk]
  exact Nat.min_le_right _ _

theorem chunk_ne_nil {buf : List UInt8} (h : buf ≠ []) : chunk buf ≠ [] := by
  have hpos := List.length_pos_iff.2 h
  rw [← List.length_pos_iff, length_chunk, maxNoisePlaintextLen, maxNoiseFrameLen, noiseTagLen]
  omega

section Write

variable [Snow]

/-- a retry sends what is left of the frame -/
theorem pollWrite_of_pending {w : NoiseWriter} {buf : List UInt8} (answers : List Answer) (hbuf : buf ≠ [])
    (h : w.writePendingConsumed = (chunk buf).length) :
    Writes buf w.unsent (w.pollWrite buf answers) ∧ (w.pollWrite buf answers).writer.sent = w.sent := by
  obtain ⟨hsent, hconsumed, hwritten, -, hdone⟩ := w.pollFlushPendingFrame_spec answers
  have hpos : w.writePendingConsumed > 0 := h ▸ List.length_pos_iff.2 (chunk_ne_nil hbuf)
  rw [pollWrite, if_pos hpos]
  dsimp only
  split
  · rename_i hpoll
    refine ⟨⟨hwritten, ?_, nofun⟩, hsent⟩
    intro n hn
    cases hn
    rw [hconsumed, h]
    exact ⟨⟨rfl, hdone hpoll⟩, take_length_chunk buf⟩
  · exact ⟨⟨hwritten, nofun, nofun⟩, hsent⟩
  · exact ⟨⟨hwritten, nofun, fun _ => hconsumed.trans h⟩, hsent⟩

theorem pollWrite_of_idle {w : NoiseWriter} (buf : List UInt8) (answers : List Answer) (h : w.Idle) :
    w.pollWrite buf answers = w.pollWriteNew buf answers := by
  have hconsumed : ¬ w.writePendingConsumed > 0 := by
    rw [h.nothing]
    exact Nat.lt_irrefl 0
  rw [pollWrite, if_neg hconsumed, if_neg (not_not_intro h.frame)]

/-- a new message is encrypted once, and its frame is the one to be sent -/
theorem pollWriteNew_spec {w : NoiseWriter} {buf : List UInt8} (answers : List Answer) (h : w.Idle) (hbuf : buf ≠ []) :
    Writes buf (frame (ciphertext w.sent (chunk buf))) (w.pollWriteNew buf answers) ∧
      (w.pollWriteNew buf answers).writer.sent = w.sent + 1 := by
  have hmessage : buf.take (min buf.length maxNoisePlaintextLen) = chunk buf := by
    rw [← length_chunk, take_length_chunk]
  have hqueue : w.queueEncryptedFrame buf =
      ({ w with sent := w.sent + 1, writeFrame := frame (ciphertext w.sent (chunk buf)), writeFramePos := 0 },
        .ok (chunk buf).length) := by
    rw [queueEncryptedFrame, hmessage, (writeMessage_eq w.sent (sealable_chunk buf)).1, length_chunk]
    rfl
  rw [pollWriteNew, if_neg hbuf, hqueue]
  dsimp only
  obtain ⟨hsent, hconsumed, hwritten, -, hdone⟩ := pollFlushPendingFrame_spec
    { w with sent := w.sent + 1, writeFrame := frame (ciphertext w.sent (chunk buf)), writeFramePos := 0 } answers
  split
  · rename_i hpoll
    refine ⟨⟨hwritten, ?_, nofun⟩, hsent⟩
    intro n hn
    cases hn
    exact ⟨⟨hconsumed.trans h.nothing, hdone hpoll⟩, take_length_chunk buf⟩
  · exact ⟨⟨hwritten, nofun, nofun⟩, hsent⟩
  · exact ⟨⟨hwritten, nofun, fun _ => rfl⟩, hsent⟩

end Write

end NoiseWriter

end Erp

end RustProof
