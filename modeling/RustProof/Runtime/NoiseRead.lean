/-
The reading half of the Noise stream: what a poll does, whatever the inner stream answers.

`Tracks` tells the reader between two polls by what it took from the inner stream, the plaintext it returned and the messages
it opened; the positions in its buffers stand where the loop of `poll_fill_plaintext` leaves them (`WellFormed`). The rest is
one lemma for each thing the loop does (`Tracks.absorb`, `openFrame`, `decryptFrame`).

Results:
- `pollRead_spec`: every poll keeps `Tracks`, and what an `Ok(0)`, an error and a `Pending` say about the inner stream
  (`Outcome`).
-/
import RustProof.Runtime.Noise

namespace RustProof

namespace Erp

/-! ## Positions -/

theorem take_fill {buf bytes : List UInt8} {pos : ℕ} (h : pos ≤ buf.length) :
    (fill buf pos bytes).take (pos + bytes.length) = buf.take pos ++ bytes := by
  rw [fill]
  exact List.take_left' (by rw [List.length_append, List.length_take, Nat.min_eq_left h])

theorem length_fill {buf bytes : List UInt8} {pos : ℕ} (h : pos + bytes.length ≤ buf.length) :
    (fill buf pos bytes).length = buf.length := by
  rw [fill, List.length_append, List.length_append, List.length_take, List.length_drop]
  omega

namespace NoiseReader

/-- what was read of the frame that is not complete yet -/
def partialFrame (r : NoiseReader) : List UInt8 := r.readLenBuf.take r.readLenPos ++ r.readEncrypted.take r.readEncryptedPos

theorem plaintext_eq_nil {r : NoiseReader} : r.plaintext = [] ↔ ¬ r.readPlaintextPos < r.readPlaintext.length := by
  rw [plaintext, List.drop_eq_nil_iff, Nat.not_lt]

/-- the positions stand where the loop leaves them -/
structure WellFormed (r : NoiseReader) : Prop where
  lenBuf : r.readLenBuf.length = 2
  lenPos : r.readLenPos ≤ 2
  encryptedPos : r.readEncryptedPos ≤ r.readEncrypted.length
  inPrefix : r.readFrameLen = none → r.readEncryptedPos = 0
  inBody : ∀ n, r.readFrameLen = some n →
    r.readLenPos = 2 ∧ n = (u16OfBe r.readLenBuf).toNat ∧ r.readEncrypted.length = n

theorem WellFormed.partialFrame_of_none {r : NoiseReader} (h : r.WellFormed) (hnone : r.readFrameLen = none) :
    r.partialFrame = r.readLenBuf.take r.readLenPos := by
  rw [partialFrame, h.inPrefix hnone, List.take_zero, List.append_nil]

theorem WellFormed.partialFrame_of_some {r : NoiseReader} (h : r.WellFormed) {n : ℕ} (hsome : r.readFrameLen = some n) :
    r.partialFrame = r.readLenBuf ++ r.readEncrypted.take r.readEncryptedPos := by
  rw [partialFrame, (h.inBody n hsome).1, List.take_of_length_le (Nat.le_of_eq h.lenBuf)]

/-- the plaintext has no part in it -/
theorem WellFormed.withPlaintext {r : NoiseReader} (h : r.WellFormed) (plaintext : List UInt8) (pos : ℕ) :
    { r with readPlaintext := plaintext, readPlaintextPos := pos }.WellFormed :=
  ⟨h.lenBuf, h.lenPos, h.encryptedPos, h.inPrefix, h.inBody⟩

/-- as long as the loop asks for more, there is no whole frame -/
theorem WellFormed.incomplete {r : NoiseReader} (h : r.WellFormed) (hroom : 0 < r.room) : Incomplete r.partialFrame := by
  intro body hfits hfront
  cases hlen : r.readFrameLen with
  | none =>
    have hle := hfront.length_le
    rw [h.partialFrame_of_none hlen, frame, List.length_append, length_u16ToBe, List.length_take] at hle
    rw [room, hlen] at hroom
    dsimp only at hroom
    have := h.lenBuf
    omega
  | some n =>
    obtain ⟨-, hn, hbuf⟩ := h.inBody n hlen
    rw [h.partialFrame_of_some hlen] at hfront
    obtain ⟨hbody, hfront⟩ := length_of_frame_prefix hfits h.lenBuf hfront
    have hle := hfront.length_le
    rw [List.length_take] at hle
    rw [room, hlen] at hroom
    dsimp only at hroom
    omega

theorem WellFormed.absorb {r : NoiseReader} (h : r.WellFormed) {bytes : List UInt8} (hroom : bytes.length ≤ r.room) :
    (r.absorb bytes).WellFormed ∧ (r.absorb bytes).partialFrame = r.partialFrame ++ bytes := by
  have hbuf := h.lenBuf
  have hpos := h.lenPos
  cases hlen : r.readFrameLen with
  | none =>
    have hzero := h.inPrefix hlen
    rw [room, hlen] at hroom
    dsimp only at hroom
    rw [NoiseReader.absorb, hlen]
    refine ⟨⟨(length_fill (by omega)).trans hbuf, by dsimp only; omega, h.encryptedPos, fun _ => hzero, nofun⟩, ?_⟩
    rw [partialFrame, partialFrame]
    dsimp only
    rw [take_fill (by omega), hzero, List.take_zero, List.append_nil, List.append_nil]
  | some n =>
    obtain ⟨htwo, hn, henc⟩ := h.inBody n hlen
    have hencPos := h.encryptedPos
    rw [room, hlen] at hroom
    dsimp only at hroom
    have hfill : (fill r.readEncrypted r.readEncryptedPos bytes).length = r.readEncrypted.length :=
      length_fill (by omega)
    rw [NoiseReader.absorb, hlen]
    refine ⟨⟨hbuf, hpos, by dsimp only; omega, nofun, ?_⟩, ?_⟩
    · intro n' hn'
      cases hn'
      exact ⟨htwo, hn, hfill.trans henc⟩
    · rw [partialFrame, partialFrame]
      dsimp only
      rw [take_fill hencPos, List.append_assoc]

/-- at the end of the inner stream: the end of the stream is reported in front of a frame, an error inside it -/
theorem WellFormed.atEnd {r : NoiseReader} (h : r.WellFormed) :
    (r.atEnd = .ok false ∧ r.partialFrame = []) ∨
      (∃ message, r.atEnd = .error ⟨.unexpectedEof, message⟩) ∧ r.partialFrame ≠ [] := by
  have hbuf := h.lenBuf
  cases hlen : r.readFrameLen with
  | none =>
    rw [NoiseReader.atEnd, hlen, h.partialFrame_of_none hlen]
    dsimp only
    split_ifs with hpos
    · exact .inl ⟨rfl, by rw [hpos, List.take_zero]⟩
    · refine .inr ⟨⟨_, rfl⟩, ?_⟩
      rw [← List.length_pos_iff, List.length_take]
      omega
  | some n =>
    rw [NoiseReader.atEnd, hlen, h.partialFrame_of_some hlen]
    refine .inr ⟨⟨_, rfl⟩, ?_⟩
    rw [← List.length_pos_iff, List.length_append]
    omega

/-! ## Polls -/

/-- the inner stream answers every read, often enough for all that is there -/
def Eager (answers : List Answer) (i : InnerRead) : Prop :=
  (∀ a ∈ answers, ∃ n, a = .ready n) ∧ i.left.length < answers.length

/-- what it means that a poll which started with `i` and left `r'` and `i'` returned this; `isEnd` is the end of the
stream -/
def Outcome {α : Type} (isEnd : α → Prop) (answers : List Answer) (i : InnerRead) (r' : NoiseReader) (i' : InnerRead) :
    Poll (Except IoError α) → Prop
  | .ready (.ok a) => isEnd a → i'.ended = true ∧ i'.left = [] ∧ r'.plaintext = [] ∧ r'.partialFrame = []
  | .ready (.error e) => .failed e ∈ answers ∨
      (e.kind = .unexpectedEof ∧ i'.ended = true ∧ i'.left = [] ∧ Incomplete r'.partialFrame ∧ r'.partialFrame ≠ [])
  | .pending => r'.plaintext = [] ∧ Incomplete r'.partialFrame ∧ (Eager answers i → i'.left = [] ∧ i'.ended = false)

/-- the answers that an outcome is about may be preceded by one more, if a byte was read for it -/
theorem Outcome.cons {α : Type} {isEnd : α → Prop} {answers : List Answer} {i i₁ i' : InnerRead} {r' : NoiseReader}
    {poll : Poll (Except IoError α)} (h : Outcome isEnd answers i₁ r' i' poll) (a : Answer)
    (hlen : i₁.left.length < i.left.length) : Outcome isEnd (a :: answers) i r' i' poll := by
  match poll, h with
  | .ready (.ok _), h => exact h
  | .ready (.error _), h => exact h.imp_left (List.mem_cons_of_mem a)
  | .pending, ⟨hdone, hincomplete, hdry⟩ =>
    refine ⟨hdone, hincomplete, ?_⟩
    rintro ⟨hready, hmore⟩
    rw [List.length_cons] at hmore
    exact hdry ⟨fun a' ha' => hready a' (List.mem_cons_of_mem a ha'), by omega⟩

/-- the bytes that a poll returned -/
def returnedBy : Poll (Except IoError (List UInt8)) → List UInt8
  | .pending => []
  | .ready (.error _) => []
  | .ready (.ok bytes) => bytes

section Read

variable [Snow]

/-- the reader took `taken` from the inner stream, which is the frames of the messages `opened` and a part of the next one,
and returned `returned` of their plaintext -/
structure Tracks (r : NoiseReader) (taken returned : List UInt8) (opened : List (List UInt8)) : Prop where
  wellFormed : r.WellFormed
  received : r.received = opened.length
  taken : taken = frames (sealedMessages opened) ++ r.partialFrame
  returned : returned ++ r.plaintext = opened.flatten

variable {r : NoiseReader} {taken returned : List UInt8} {opened messages : List (List UInt8)}

theorem Tracks.new : new.Tracks [] [] [] :=
  ⟨⟨rfl, Nat.zero_le 2, Nat.le_refl 0, fun _ => rfl, nofun⟩, rfl, rfl, rfl⟩

theorem Tracks.absorb (h : r.Tracks taken returned opened) {bytes : List UInt8} (hroom : bytes.length ≤ r.room) :
    (r.absorb bytes).Tracks (taken ++ bytes) returned opened := by
  obtain ⟨hwf, hpart⟩ := h.wellFormed.absorb hroom
  have hrest : (r.absorb bytes).received = r.received ∧ (r.absorb bytes).plaintext = r.plaintext := by
    rw [NoiseReader.absorb]
    split <;> exact ⟨rfl, rfl⟩
  refine ⟨hwf, hrest.1.trans h.received, ?_, ?_⟩
  · rw [hpart, h.taken, List.append_assoc]
  · rw [hrest.2]
    exact h.returned

theorem Tracks.cleared (h : r.Tracks taken returned opened) (hdone : r.plaintext = []) :
    { r with readPlaintext := [], readPlaintextPos := 0 }.Tracks taken returned opened :=
  ⟨h.wellFormed.withPlaintext [] 0, h.received, h.taken, hdone ▸ h.returned⟩

theorem Tracks.openFrame (h : r.Tracks taken returned opened) (hnone : r.readFrameLen = none)
    (hpos : ¬ r.readLenPos < r.readLenBuf.length) : r.openFrame.Tracks taken returned opened := by
  have hbuf := h.wellFormed.lenBuf
  have hlenPos := h.wellFormed.lenPos
  refine ⟨⟨hbuf, hlenPos, Nat.zero_le _, nofun, ?_⟩, h.received, ?_, h.returned⟩
  · intro n hn
    cases hn
    exact ⟨by rw [NoiseReader.openFrame]; dsimp only; omega, rfl, List.length_replicate⟩
  · rw [h.taken, h.wellFormed.partialFrame_of_none hnone, partialFrame]
    exact congrArg _ (List.append_nil _).symm

/-- the plaintext in hand, or what the next read can ask for -/
def Settled (r : NoiseReader) : Prop := r.plaintext = [] → 0 < r.room

/-- the k-th frame that is complete is decrypted to the k-th message -/
theorem Tracks.decryptFrame (h : r.Tracks taken returned opened) (hmessages : ∀ m ∈ messages, Sealable m)
    (hopened : opened <+: messages) (htaken : taken <+: frames (sealedMessages messages)) (hdone : r.plaintext = [])
    {n : ℕ} (hlen : r.readFrameLen = some n) (hpos : ¬ r.readEncryptedPos < n) :
    ∃ r' message, r.decryptFrame = (r', .ok ()) ∧ opened ++ [message] <+: messages ∧
      r'.Tracks taken returned (opened ++ [message]) ∧ r'.Settled := by
  obtain ⟨-, hn, henc⟩ := h.wellFormed.inBody n hlen
  have hbuf := h.wellFormed.lenBuf
  have hwhole : r.partialFrame = r.readLenBuf ++ r.readEncrypted := by
    rw [h.wellFormed.partialFrame_of_some hlen, List.take_of_length_le (by omega)]
  rw [h.taken, hwhole] at htaken
  obtain ⟨message, hnext, hcipher, hframe⟩ := exists_next_message hmessages hopened hbuf (henc.trans hn) htaken
  have hread : readMessage r.received r.readEncrypted = .ok message := by
    rw [hcipher, h.received]
    exact Snow.read_write _ _ _ (writeMessage_eq _ (hmessages message (hnext.subset (by simp)))).1
  rw [NoiseReader.decryptFrame, hread]
  refine ⟨_, message, rfl, hnext, ⟨⟨hbuf, Nat.zero_le 2, Nat.le_refl 0, fun _ => rfl, nofun⟩, ?_, ?_, ?_⟩, ?_⟩
  · rw [List.length_append, List.length_singleton, h.received]
  · rw [sealedMessages_append_singleton, frames_append, frames_cons, frames_nil, List.append_nil, ← hcipher, h.taken, hwhole,
      hframe]
    exact (List.append_nil _).symm
  · rw [List.flatten_concat, ← h.returned, hdone, List.append_nil]
    rfl
  · intro _
    rw [room]
    dsimp only
    rw [hbuf]
    decide

theorem Tracks.body (h : r.Tracks taken returned opened) (hmessages : ∀ m ∈ messages, Sealable m)
    (hopened : opened <+: messages) (htaken : taken <+: frames (sealedMessages messages)) (hdone : r.plaintext = [])
    (hfront : r.readFrameLen = none → r.readLenPos < r.readLenBuf.length) :
    ∃ r' opened', (match r.readFrameLen with
      | none => (r, .ok ())
      | some frameLen => if r.readEncryptedPos < frameLen then (r, .ok ()) else r.decryptFrame) = (r', Except.ok ()) ∧
      opened' <+: messages ∧ r'.Tracks taken returned opened' ∧ r'.Settled := by
  cases hlen : r.readFrameLen with
  | none =>
    have hpos := hfront hlen
    refine ⟨r, opened, rfl, hopened, h, ?_⟩
    intro _
    rw [room, hlen]
    exact Nat.sub_pos_of_lt hpos
  | some n =>
    dsimp only
    split_ifs with hpos
    · refine ⟨r, opened, rfl, hopened, h, ?_⟩
      intro _
      rw [room, hlen]
      exact Nat.sub_pos_of_lt hpos
    · obtain ⟨r', message, hdecrypt, hrest⟩ := h.decryptFrame hmessages hopened htaken hdone hlen hpos
      exact ⟨r', _, hdecrypt, hrest⟩

theorem Tracks.advance (h : r.Tracks taken returned opened) (hmessages : ∀ m ∈ messages, Sealable m)
    (hopened : opened <+: messages) (htaken : taken <+: frames (sealedMessages messages)) :
    ∃ r' opened', r.advance = (r', .ok ()) ∧ opened' <+: messages ∧ r'.Tracks taken returned opened' ∧ r'.Settled := by
  rw [NoiseReader.advance]
  split_ifs with hplain
  · exact ⟨r, opened, rfl, hopened, h, fun hdone => absurd hplain (plaintext_eq_nil.1 hdone)⟩
  · have hcleared := h.cleared (plaintext_eq_nil.2 hplain)
    dsimp only
    split_ifs with hopen
    · exact (hcleared.openFrame hopen.1 hopen.2).body hmessages hopened htaken rfl nofun
    · exact hcleared.body hmessages hopened htaken rfl fun hnone => not_not.1 fun hpos => hopen ⟨hnone, hpos⟩

/-- what every poll of the reader does -/
structure Polled {α : Type} (isEnd : α → Prop) (messages : List (List UInt8)) (returned : List UInt8)
    (answers : List Answer) (i : InnerRead) (result : NoiseReader × InnerRead × Poll (Except IoError α)) : Prop where
  tracks : ∃ opened, opened <+: messages ∧ result.1.Tracks result.2.1.taken returned opened
  arrived : result.2.1.arrived = i.arrived
  ended : result.2.1.ended = i.ended
  outcome : Outcome isEnd answers i result.1 result.2.1 result.2.2

theorem pollFillPlaintext_spec (answers : List Answer) {r : NoiseReader} {i : InnerRead} {opened : List (List UInt8)}
    (hmessages : ∀ m ∈ messages, Sealable m) (harrived : i.arrived <+: frames (sealedMessages messages))
    (hopened : opened <+: messages) (h : r.Tracks i.taken returned opened) :
    Polled (· = false) messages returned answers i (r.pollFillPlaintext i answers) ∧
      ((r.pollFillPlaintext i answers).2.2 = .ready (.ok true) → (r.pollFillPlaintext i answers).1.plaintext ≠ []) := by
  obtain ⟨r', opened', hadvance, hopened', htracks, hsettled⟩ :=
    h.advance hmessages hopened ((List.prefix_append _ _).trans harrived)
  rw [pollFillPlaintext, hadvance]
  dsimp only
  split_ifs with hplain
  · exact ⟨⟨⟨opened', hopened', htracks⟩, rfl, rfl, nofun⟩, fun _ hnil => plaintext_eq_nil.1 hnil hplain⟩
  · have hdone := plaintext_eq_nil.2 hplain
    have hincomplete := htracks.wellFormed.incomplete (hsettled hdone)
    -- every read of the inner stream uses up an answer
    match answers with
    | [] =>
      refine ⟨⟨⟨opened', hopened', htracks⟩, rfl, rfl, hdone, hincomplete, ?_⟩, nofun⟩
      rintro ⟨-, hmore⟩
      exact nomatch hmore
    | a :: answers =>
      dsimp only
      obtain ⟨hread, hdry⟩ | ⟨e, rfl, hread⟩ | ⟨hleft, hended, hread⟩ | ⟨b, bytes, rest, hleft, hroom, hread⟩ :=
        i.pollRead_cases (hsettled hdone) a
      · rw [hread]
        refine ⟨⟨⟨opened', hopened', htracks⟩, rfl, rfl, hdone, hincomplete, ?_⟩, nofun⟩
        rintro ⟨hready, -⟩
        obtain ⟨n, hn⟩ := hready a List.mem_cons_self
        exact hdry n hn
      · rw [hread]
        exact ⟨⟨⟨opened', hopened', htracks⟩, rfl, rfl, .inl List.mem_cons_self⟩, nofun⟩
      · rw [hread]
        dsimp only
        obtain ⟨hatEnd, hnone⟩ | ⟨⟨message, hatEnd⟩, hsome⟩ := htracks.wellFormed.atEnd
        · rw [hatEnd]
          exact ⟨⟨⟨opened', hopened', htracks⟩, rfl, rfl, fun _ => ⟨hended, hleft, hdone, hnone⟩⟩, nofun⟩
        · rw [hatEnd]
          exact ⟨⟨⟨opened', hopened', htracks⟩, rfl, rfl, .inr ⟨rfl, hended, hleft, hincomplete, hsome⟩⟩, nofun⟩
      · rw [hread]
        dsimp only
        have hsame : (⟨i.taken ++ b :: bytes, rest, i.ended⟩ : InnerRead).arrived = i.arrived := by
          rw [InnerRead.arrived, InnerRead.arrived, hleft, List.append_assoc]
        obtain ⟨⟨htracks', harrived', hended', houtcome⟩, hplain'⟩ :=
          pollFillPlaintext_spec answers (i := ⟨i.taken ++ b :: bytes, rest, i.ended⟩) hmessages (hsame ▸ harrived) hopened'
            (htracks.absorb hroom)
        refine ⟨⟨htracks', harrived'.trans hsame, hended', houtcome.cons a ?_⟩, hplain'⟩
        rw [hleft, List.length_append, List.length_cons]
        dsimp only
        omega

/-- some of the plaintext in hand is returned -/
theorem Tracks.takePlaintext (h : r.Tracks taken returned opened) (n : ℕ) :
    (if r.readPlaintextPos + (r.plaintext.take n).length = r.readPlaintext.length then
        { r with readPlaintext := [], readPlaintextPos := 0 }
      else { r with readPlaintextPos := r.readPlaintextPos + (r.plaintext.take n).length }).Tracks taken
      (returned ++ r.plaintext.take n) opened := by
  have hleft : r.readPlaintext.drop (r.readPlaintextPos + (r.plaintext.take n).length) = r.plaintext.drop n := by
    rw [← List.drop_drop, List.length_take]
    exact List.drop_eq_drop_min.symm
  have hreturned : returned ++ r.plaintext.take n ++ r.plaintext.drop n = opened.flatten := by
    rw [List.append_assoc, List.take_append_drop]
    exact h.returned
  split_ifs with hall
  · rw [← hleft, hall, List.drop_length] at hreturned
    exact ⟨h.wellFormed.withPlaintext _ _, h.received, h.taken, hreturned⟩
  · rw [← hleft] at hreturned
    exact ⟨h.wellFormed.withPlaintext _ _, h.received, h.taken, hreturned⟩

theorem pollRead_spec (answers : List Answer) {i : InnerRead} {len : ℕ} (hlen : 0 < len)
    (hmessages : ∀ m ∈ messages, Sealable m) (harrived : i.arrived <+: frames (sealedMessages messages))
    (hopened : opened <+: messages) (h : r.Tracks i.taken returned opened) :
    Polled (· = []) messages (returned ++ returnedBy (r.pollRead i len answers).2.2) answers i
      (r.pollRead i len answers) := by
  obtain ⟨⟨⟨opened', hopened', htracks⟩, harrived', hended, houtcome⟩, hplain⟩ :=
    pollFillPlaintext_spec answers hmessages harrived hopened h
  rw [pollRead, if_neg (Nat.pos_iff_ne_zero.1 hlen)]
  have hsame := List.append_nil returned
  generalize r.pollFillPlaintext i answers = result at *
  obtain ⟨r', i', poll⟩ := result
  dsimp only at *
  match poll, houtcome, hplain with
  | .pending, houtcome, _ => exact ⟨⟨opened', hopened', hsame.symm ▸ htracks⟩, harrived', hended, houtcome⟩
  | .ready (.error e), houtcome, _ => exact ⟨⟨opened', hopened', hsame.symm ▸ htracks⟩, harrived', hended, houtcome⟩
  | .ready (.ok false), houtcome, _ =>
    exact ⟨⟨opened', hopened', hsame.symm ▸ htracks⟩, harrived', hended, fun _ => houtcome rfl⟩
  | .ready (.ok true), _, hplain =>
    refine ⟨⟨opened', hopened', htracks.takePlaintext _⟩, harrived', hended, ?_⟩
    intro hnil
    have hpos := List.length_pos_iff.2 (hplain rfl)
    have hnone := List.take_eq_nil_iff.1 hnil
    rw [or_iff_left (hplain rfl)] at hnone
    omega

end Read

end NoiseReader

end Erp

end RustProof
