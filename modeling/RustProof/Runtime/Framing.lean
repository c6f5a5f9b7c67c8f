/-
Length-prefixed frames on a stream (`length_prefixed.rs` and `read_postcard_frame` of rp-codec).

The stream is an `AsyncRead`: each poll of it may be pending, fail, or hand over some of the bytes that are there, as many
as it likes up to the room in the buffer. `ReadM` is an async function over such a stream; if the answers are used up it is
still waiting. `Consumes x bytes r`: however the stream cuts them into pieces, `x` takes exactly `bytes` and ends with `r`.

The length of a frame is parsed twice: byte by byte from the stream, with room for five, and by the slice decoder of the
crate `unsigned_varint`. They agree because that decoder looks no further than the first byte without the continuation bit.

Results:
- `consumes_of_ends`: the reader over a duplex stream that the negotiation uses, which waits for one byte after the other,
  is this one seen from further away;
- `framing_round_trips`: frames come back in order whatever follows them, a frame that was read is one the slice decoder
  accepts, and a header that is too long or announces too much is refused with nothing read behind it.
-/
import RustProof.Runtime.Multistream
import RustProof.Runtime.Noise

namespace RustProof

/-- the slice decoder decides by the bytes up to the first one without the continuation bit, and leaves what follows it -/
class LocalVarint [UnsignedVarint] : Prop where
  decode_local : ∀ (init : List UInt8) (last : UInt8) (rest : List UInt8), (∀ b ∈ init, b &&& 0x80 ≠ 0) →
    last &&& 0x80 = 0 → decodeU32 (init ++ last :: rest) = (decodeU32 (init ++ [last])).map fun r => (r.1, rest)

namespace Erp

/-! ## Reading from a stream -/

/-- what an async function does with the stream and its answers; `none`: it is still waiting -/
def ReadM (α : Type) : Type :=
  InnerRead → List Answer → Option (Except IoError α × InnerRead × List Answer)

namespace ReadM

variable {α β : Type}

instance : Monad ReadM where
  pure a := fun i answers => some (.ok a, i, answers)
  bind x f := fun i answers =>
    match x i answers with
    | none => none
    | some (.error e, i, answers) => some (.error e, i, answers)
    | some (.ok a, i, answers) => f a i answers

def ofExcept (r : Except IoError α) : ReadM α := fun i answers => some (r, i, answers)

/-- `ErrorKind::UnexpectedEof.into()` -/
def endOfFile : IoError := ⟨.unexpectedEof, "unexpected end of file"⟩

/-- the loop of `read_exact` until the buffer has no more room -/
def readExactLoop : List Answer → (room : ℕ) → InnerRead →
    Option (Except IoError (List UInt8) × InnerRead × List Answer)
  | answers, 0, i => some (.ok [], i, answers)
  | [], _ + 1, _ => none
  | a :: answers, room + 1, i =>
    match i.pollRead (room + 1) a with
    | (i, .pending) => readExactLoop answers (room + 1) i
    | (i, .ready (.error e)) => some (.error e, i, answers)
    | (i, .ready (.ok bytes)) =>
      if bytes = [] then some (.error endOfFile, i, answers)
      else
        match readExactLoop answers (room + 1 - bytes.length) i with
        | some (.ok rest, i, answers) => some (.ok (bytes ++ rest), i, answers)
        | other => other

/-- `stream.read_exact(&mut buf)` with `buf.len() = len` -/
def readExact (len : ℕ) : ReadM (List UInt8) := fun i answers => readExactLoop answers len i

/-! ## Frames -/

section Frames

variable [UnsignedVarint]

/-- the loop of `read_length_prefixed_frame`, with room for `room` more bytes in the header -/
def readHeader : (room : ℕ) → (header : List UInt8) → ReadM (List UInt8)
  | 0, _ => ofExcept (.error ⟨.invalidData, "frame length prefix exceeds u32 varint width"⟩)
  | room + 1, header => do
    let byte ← readExact 1
    let header := header ++ byte
    if header.getLastD 0 &&& 0x80 = 0 then pure header else readHeader room header

def readLengthPrefixedFrame (maxLen : UInt32) : ReadM (List UInt8) := do
  let header ← readHeader 5 []
  let payloadLen ← ofExcept (decodeLengthPrefixedPayloadLen header maxLen)
  let body ← readExact payloadLen
  pure (header ++ body)

/-- `read_length_prefixed_frame`, again and again -/
def readFrames (maxLen : UInt32) : ℕ → ReadM (List (List UInt8))
  | 0 => pure []
  | n + 1 => do
    let frame ← readLengthPrefixedFrame maxLen
    let frames ← readFrames maxLen n
    pure (frame :: frames)

/-- `decode` is `postcard::from_bytes` at the type of the value -/
def readPostcardFrame (decode : List UInt8 → Option α) (maxLen : UInt32) : ReadM α := do
  let frame ← readLengthPrefixedFrame maxLen
  let (_, payload) ← ofExcept (decodeLengthPrefix frame maxLen)
  ofExcept ((decode payload).elim (.error ⟨.invalidData, "failed to decode postcard payload"⟩) .ok)

end Frames

/-! ## What is taken from the stream -/

def NoFailure (answers : List Answer) : Prop := ∀ e, Answer.failed e ∉ answers

/-- the number of polls that hand over something, if there is something -/
def readies (answers : List Answer) : ℕ := answers.countP fun a => a matches .ready _

/-- in front of `bytes`, however they arrive, `x` takes exactly these and ends with `r`; it waits only for answers -/
def Consumes (x : ReadM α) (bytes : List UInt8) (r : Except IoError α) : Prop :=
  ∀ (i : InnerRead) (rest : List UInt8) (answers : List Answer), i.left = bytes ++ rest → NoFailure answers →
    x i answers = none ∧ readies answers < bytes.length ∨
    ∃ used answers', answers = used ++ answers' ∧ readies used ≤ bytes.length ∧
      x i answers = some (r, ⟨i.taken ++ bytes, rest, i.ended⟩, answers')

section Rules

variable {x : ReadM α} {f : α → ReadM β} {bytes bytes' : List UInt8} {a : α}

theorem bind_none {i : InnerRead} {answers : List Answer} (h : x i answers = none) : (x >>= f) i answers = none := by
  simp only [bind, h]

theorem bind_error {i i' : InnerRead} {answers answers' : List Answer} {e : IoError}
    (h : x i answers = some (.error e, i', answers')) : (x >>= f) i answers = some (.error e, i', answers') := by
  simp only [bind, h]

theorem bind_some {i i' : InnerRead} {answers answers' : List Answer}
    (h : x i answers = some (.ok a, i', answers')) : (x >>= f) i answers = f a i' answers' := by
  simp only [bind, h]

theorem readies_append (used answers : List Answer) : readies (used ++ answers) = readies used + readies answers :=
  List.countP_append

theorem Consumes.ofExcept (r : Except IoError α) : Consumes (ReadM.ofExcept r) [] r := by
  intro i rest answers hleft _
  refine .inr ⟨[], answers, rfl, Nat.zero_le _, ?_⟩
  rw [ReadM.ofExcept, List.append_nil, ← List.nil_append rest, ← hleft]

theorem Consumes.pure (a : α) : Consumes (Pure.pure a) [] (.ok a) := Consumes.ofExcept (.ok a)

theorem Consumes.bind {r : Except IoError β} (h : Consumes x bytes (.ok a)) (h' : Consumes (f a) bytes' r) :
    Consumes (x >>= f) (bytes ++ bytes') r := by
  intro i rest answers hleft hfail
  rw [List.append_assoc] at hleft
  rcases h i _ answers hleft hfail with ⟨hnone, hfew⟩ | ⟨used, answers', rfl, hused, hx⟩
  · exact .inl ⟨bind_none hnone, by rw [List.length_append]; omega⟩
  have hfail' : NoFailure answers' := fun e he => hfail e (List.mem_append_right _ he)
  rcases h' ⟨i.taken ++ bytes, bytes' ++ rest, i.ended⟩ rest answers' rfl hfail' with
    ⟨hnone, hfew⟩ | ⟨used', answers'', rfl, hused', hf⟩
  · exact .inl ⟨(bind_some hx).trans hnone, by rw [readies_append, List.length_append]; omega⟩
  · refine .inr ⟨used ++ used', answers'', by rw [List.append_assoc], ?_, ?_⟩
    · rw [readies_append, List.length_append]
      omega
    · rw [bind_some hx, hf, List.append_assoc]

/-- a part that takes nothing -/
theorem Consumes.bind_nil {r : Except IoError β} (h : Consumes x [] (.ok a)) (h' : Consumes (f a) bytes r) :
    Consumes (x >>= f) bytes r :=
  Consumes.bind h h'

theorem Consumes.bind_error {e : IoError} (h : Consumes x bytes (.error e)) : Consumes (x >>= f) bytes (.error e) := by
  intro i rest answers hleft hfail
  rcases h i rest answers hleft hfail with ⟨hnone, hfew⟩ | ⟨used, answers', hanswers, hused, hx⟩
  · exact .inl ⟨bind_none hnone, hfew⟩
  · exact .inr ⟨used, answers', hanswers, hused, ReadM.bind_error hx⟩

theorem readExactLoop_zero (answers : List Answer) (i : InnerRead) :
    readExactLoop answers 0 i = some (.ok [], i, answers) := by
  cases answers <;> rfl

theorem readies_cons_le (a : Answer) (answers : List Answer) : readies (a :: answers) ≤ readies answers + 1 := by
  unfold readies
  rw [List.countP_cons]
  split_ifs <;> omega

/-- one poll for a buffer with room, when there is something to read -/
theorem readExactLoop_step {i : InnerRead} {bytes rest : List UInt8} {a : Answer}
    (hleft : i.left = bytes ++ rest) (hne : bytes ≠ []) (hfail : ∀ e, a ≠ .failed e) (answers : List Answer) :
    (∀ n, a ≠ .ready n) ∧ readExactLoop (a :: answers) bytes.length i = readExactLoop answers bytes.length i ∨
    ∃ chunk more, chunk ≠ [] ∧ bytes = chunk ++ more ∧ readExactLoop (a :: answers) bytes.length i =
      match readExactLoop answers more.length ⟨i.taken ++ chunk, more ++ rest, i.ended⟩ with
      | some (.ok tail, i, answers) => some (.ok (chunk ++ tail), i, answers)
      | other => other := by
  obtain ⟨room, hroom⟩ := Nat.exists_eq_succ_of_ne_zero (List.length_pos_iff.2 hne).ne'
  rw [hroom]
  rcases i.pollRead_cases (Nat.succ_pos room) a with ⟨hpoll, hready⟩ | ⟨e, ha, -⟩ | ⟨hnil, -, -⟩ |
    ⟨b, chunk, rest', hchunk, hfit, hpoll⟩
  · refine .inl ⟨fun n ha => ?_, by simp only [readExactLoop, hpoll]⟩
    rw [hleft] at hready
    exact hne (List.append_eq_nil_iff.1 (hready n ha).1).1
  · exact absurd ha (hfail e)
  · rw [hleft] at hnil
    exact absurd (List.append_eq_nil_iff.1 hnil).1 hne
  · rw [← hroom] at hfit
    obtain ⟨more, hmore⟩ : (b :: chunk) <+: bytes := by
      refine List.prefix_of_prefix_length_le ⟨rest', hchunk.symm⟩ ⟨rest, hleft.symm⟩ hfit
    have hrest : rest' = more ++ rest := by
      rw [hleft, ← hmore, List.append_assoc] at hchunk
      exact (List.append_cancel_left hchunk).symm
    have hlen : room + 1 - (b :: chunk).length = more.length := by
      rw [← Nat.succ_eq_add_one, ← hroom, ← hmore, List.length_append, Nat.add_sub_cancel_left]
    refine .inr ⟨b :: chunk, more, List.cons_ne_nil _ _, hmore.symm, ?_⟩
    simp only [readExactLoop, hpoll, hlen, hrest, reduceCtorEq, if_false]

theorem Consumes.readExact (bytes : List UInt8) : Consumes (ReadM.readExact bytes.length) bytes (.ok bytes) := by
  intro i rest answers hleft hfail
  unfold ReadM.readExact
  induction answers generalizing bytes i with
  | nil =>
    by_cases hne : bytes = []
    · subst hne
      refine .inr ⟨[], [], rfl, Nat.zero_le _, ?_⟩
      rw [List.length_nil, readExactLoop_zero, List.append_nil, ← List.nil_append rest, ← hleft]
    · obtain ⟨room, hroom⟩ := Nat.exists_eq_succ_of_ne_zero (List.length_pos_iff.2 hne).ne'
      rw [hroom]
      exact .inl ⟨rfl, Nat.succ_pos _⟩
  | cons a answers ih =>
    by_cases hne : bytes = []
    · subst hne
      refine .inr ⟨[], a :: answers, rfl, Nat.zero_le _, ?_⟩
      rw [List.length_nil, readExactLoop_zero, List.append_nil, ← List.nil_append rest, ← hleft]
    have hfail' : NoFailure answers := fun e he => hfail e (List.mem_cons_of_mem _ he)
    have hhead : ∀ e, a ≠ .failed e := fun e ha => hfail e (by rw [ha]; exact List.mem_cons_self)
    rcases readExactLoop_step hleft hne hhead answers with ⟨hready, hstep⟩ | ⟨chunk, more, hchunk, rfl, hstep⟩
    · -- a pending poll is not counted
      have hcount : ∀ l, readies (a :: l) = readies l := fun l => by
        cases a with
        | pending => rfl
        | ready n => exact absurd rfl (hready n)
        | failed e => exact absurd rfl (hhead e)
      rw [hstep, hcount]
      rcases ih bytes i hleft hfail' with hwait | ⟨used, answers', rfl, hused, hx⟩
      · exact .inl hwait
      · exact .inr ⟨a :: used, answers', rfl, by rw [hcount]; exact hused, hx⟩
    · have hpos := List.length_pos_iff.2 hchunk
      rw [hstep]
      rcases ih more ⟨i.taken ++ chunk, more ++ rest, i.ended⟩ rfl hfail' with
        ⟨hnone, hfew⟩ | ⟨used, answers', rfl, hused, hx⟩
      · refine .inl ⟨by rw [hnone], ?_⟩
        have := readies_cons_le a answers
        rw [List.length_append]
        omega
      · refine .inr ⟨a :: used, answers', rfl, ?_, ?_⟩
        · have := readies_cons_le a used
          rw [List.length_append]
          omega
        · rw [hx]
          simp only [List.append_assoc]

end Rules

/-! ## Headers -/

theorem getLastD_concat (l : List UInt8) (b d : UInt8) : (l ++ [b]).getLastD d = b := by simp

theorem consumes_header {init : List UInt8} {last : UInt8} (hinit : ∀ b ∈ init, b &&& 0x80 ≠ 0)
    (hlast : last &&& 0x80 = 0) {room : ℕ} (hroom : init.length < room) (header : List UInt8) :
    Consumes (readHeader room header) (init ++ [last]) (.ok (header ++ (init ++ [last]))) := by
  induction init generalizing room header with
  | nil =>
    obtain ⟨room, rfl⟩ := Nat.exists_eq_succ_of_ne_zero (Nat.ne_of_gt hroom)
    change Consumes _ ([last] ++ []) _
    refine Consumes.bind (Consumes.readExact [last]) ?_
    simp only [getLastD_concat, hlast, if_true]
    exact Consumes.pure _
  | cons b init ih =>
    obtain ⟨room, rfl⟩ := Nat.exists_eq_succ_of_ne_zero (Nat.ne_of_gt (Nat.zero_lt_of_lt hroom))
    change Consumes _ ([b] ++ (init ++ [last])) _
    refine Consumes.bind (Consumes.readExact [b]) ?_
    simp only [getLastD_concat]
    rw [if_neg (hinit b List.mem_cons_self)]
    have hrest := ih (fun b' hb' => hinit b' (List.mem_cons_of_mem _ hb')) (Nat.lt_of_succ_lt_succ hroom) (header ++ [b])
    rwa [List.append_assoc] at hrest

/-- a header that goes on when there is no more room for it -/
theorem consumes_header_overlong {init : List UInt8} (hinit : ∀ b ∈ init, b &&& 0x80 ≠ 0) (header : List UInt8) :
    Consumes (readHeader init.length header) init
      (.error ⟨.invalidData, "frame length prefix exceeds u32 varint width"⟩) := by
  induction init generalizing header with
  | nil => exact Consumes.ofExcept _
  | cons b init ih =>
    change Consumes _ ([b] ++ init) _
    refine Consumes.bind (Consumes.readExact [b]) ?_
    simp only [getLastD_concat]
    rw [if_neg (hinit b List.mem_cons_self)]
    exact ih (fun b' hb' => hinit b' (List.mem_cons_of_mem _ hb')) (header ++ [b])

/-! ## Frames -/

section Frames

variable [UnsignedVarint] {maxLen : UInt32}

/-- what `encode_length_prefixed` makes of a payload -/
def frameBytes (payload : List UInt8) : List UInt8 := encodeU32 (UInt32.ofNat payload.length) ++ payload

theorem encodeLengthPrefixed_eq {payload : List UInt8} (hlen : payload.length ≤ maxLen.toNat) :
    encodeLengthPrefixed payload maxLen = .ok (frameBytes payload) := if_neg (Nat.not_lt.2 hlen)

theorem consumes_frame {payload : List UInt8} (hlen : payload.length ≤ maxLen.toNat) :
    Consumes (readLengthPrefixedFrame maxLen) (frameBytes payload) (.ok (frameBytes payload)) := by
  obtain ⟨init, last, hbytes, hinit, hlast, hroom⟩ := UnsignedVarint.encode_bytes (UInt32.ofNat payload.length)
  have hdecode : decodeLengthPrefixedPayloadLen (encodeU32 (UInt32.ofNat payload.length)) maxLen = .ok payload.length := by
    have hround := UnsignedVarint.decode_encode (UInt32.ofNat payload.length) []
    rw [List.append_nil] at hround
    rw [decodeLengthPrefixedPayloadLen, hround]
    dsimp only
    rw [if_neg (not_payloadLen_gt hlen), toNat_payloadLen hlen]
  have hheader : Consumes (readHeader 5 []) (encodeU32 (UInt32.ofNat payload.length))
      (.ok (encodeU32 (UInt32.ofNat payload.length))) := by
    rw [hbytes]
    exact consumes_header hinit hlast hroom []
  refine Consumes.bind hheader ?_
  rw [hdecode]
  refine Consumes.bind_nil (Consumes.ofExcept _) ?_
  rw [← List.append_nil payload]
  refine Consumes.bind ?_ (Consumes.pure _)
  rw [List.append_nil]
  exact Consumes.readExact payload

theorem consumes_frames {payloads : List (List UInt8)} (hlen : ∀ p ∈ payloads, p.length ≤ maxLen.toNat) :
    Consumes (readFrames maxLen payloads.length) (payloads.map frameBytes).flatten (.ok (payloads.map frameBytes)) := by
  induction payloads with
  | nil => exact Consumes.pure _
  | cons p payloads ih =>
    have hrest := ih fun q hq => hlen q (List.mem_cons_of_mem _ hq)
    refine Consumes.bind (consumes_frame (hlen p List.mem_cons_self)) ?_
    rw [← List.append_nil (List.flatten _)]
    exact hrest.bind (Consumes.pure _)

/-- a header that announces too much -/
theorem consumes_too_long {init : List UInt8} {last : UInt8} (hinit : ∀ b ∈ init, b &&& 0x80 ≠ 0)
    (hlast : last &&& 0x80 = 0) (hroom : init.length < 5) {n : UInt32} {rest : List UInt8}
    (hdecode : decodeU32 (init ++ [last]) = .ok (n, rest)) (hn : maxLen < n) :
    Consumes (readLengthPrefixedFrame maxLen) (init ++ [last])
      (.error ⟨.invalidData, "frame length exceeds configured maximum"⟩) := by
  have hrefused : decodeLengthPrefixedPayloadLen (init ++ [last]) maxLen =
      .error ⟨.invalidData, "frame length exceeds configured maximum"⟩ := by
    rw [decodeLengthPrefixedPayloadLen, hdecode]
    exact if_pos hn
  rw [← List.append_nil (init ++ [last])]
  refine Consumes.bind (consumes_header hinit hlast hroom []) ?_
  rw [List.nil_append, hrefused]
  exact Consumes.bind_error (Consumes.ofExcept _)

theorem consumes_overlong {header : List UInt8} (hheader : ∀ b ∈ header, b &&& 0x80 ≠ 0) (hlen : header.length = 5) :
    Consumes (readLengthPrefixedFrame maxLen) header
      (.error ⟨.invalidData, "frame length prefix exceeds u32 varint width"⟩) := by
  have hover := consumes_header_overlong hheader []
  rw [hlen] at hover
  exact Consumes.bind_error hover

end Frames

/-! ## The reader that waits for bytes -/

section Waiting

open Proc (gets)

theorem ends_bind_inv {ε : Type} {x : StreamM ε α} {f : α → StreamM ε β} {trace : List (Proc.Event UInt8)}
    {r : Except ε β} (h : Ends (x >>= f) trace r) : ∃ q t t', trace = t ++ t' ∧ Ends x t q ∧
      ((∃ e, q = .error e ∧ r = .error e ∧ t' = []) ∨ ∃ a, q = .ok a ∧ Ends (f a) t' r) := by
  obtain ⟨q, t, t', htrace, hx, hf⟩ := Proc.Runs.of_bind h
  refine ⟨q, t, t', htrace, hx, ?_⟩
  cases q with
  | error e =>
    cases hf
    exact .inl ⟨e, rfl, rfl, rfl⟩
  | ok a => exact .inr ⟨a, rfl, hf⟩

theorem ends_lift_inv {ε : Type} {p : Proc UInt8 α} {trace : List (Proc.Event UInt8)} {r : Except ε α}
    (h : Ends (ExceptT.lift p : StreamM ε α) trace r) : ∃ a, r = .ok a ∧ p.Runs trace (.done a) := by
  obtain ⟨a, t, t', rfl, hp, hr⟩ := Proc.Runs.of_bind h
  cases hr
  exact ⟨a, rfl, by rwa [List.append_nil]⟩

theorem gets_eq_append {bytes : List UInt8} {t t' : List (Proc.Event UInt8)} (h : gets bytes = t ++ t') :
    ∃ b₁ b₂, bytes = b₁ ++ b₂ ∧ t = gets b₁ ∧ t' = gets b₂ := by
  obtain ⟨b₁, b₂, rfl, rfl, rfl⟩ := List.map_eq_append_iff.1 h
  exact ⟨b₁, b₂, rfl, rfl, rfl⟩

theorem gets_inj {bytes bytes' : List UInt8} (h : gets bytes = gets bytes') : bytes = bytes' :=
  List.map_injective_iff.2 (fun _ _ heq => Proc.Event.get.inj heq) h

theorem consumes_of_ends_header {room : ℕ} {header bytes : List UInt8} {r : Except IoError (List UInt8)}
    (h : Ends (Erp.readHeader room header) (gets bytes) r) : Consumes (readHeader room header) bytes r := by
  induction room generalizing header bytes with
  | zero =>
    have hend : Ends (throw ⟨.invalidData, "frame length prefix exceeds u32 varint width"⟩) (gets bytes) r := h
    generalize htrace : gets bytes = trace at hend
    cases hend
    rw [List.map_eq_nil_iff.1 htrace]
    exact Consumes.ofExcept _
  | succ room ih =>
    obtain ⟨q, t, t', htrace, hbyte, hrest⟩ := ends_bind_inv h
    obtain ⟨b₁, b₂, rfl, rfl, rfl⟩ := gets_eq_append htrace
    obtain ⟨b, rfl, hb⟩ := ends_lift_inv hbyte
    obtain ⟨_, hq, -⟩ | ⟨a, hq, hf⟩ := hrest
    · cases hq
    cases hq
    have hone : b₁ = [b] := by
      generalize htrace : gets b₁ = trace at hb
      cases hb with
      | get hdone =>
        cases hdone
        exact gets_inj htrace
    subst hone
    refine Consumes.bind (Consumes.readExact [b]) ?_
    simp only [getLastD_concat]
    split_ifs at hf ⊢
    · generalize htrace : gets b₂ = trace at hf
      cases hf
      rw [List.map_eq_nil_iff.1 htrace]
      exact Consumes.pure _
    · exact ih hf

/-- What the reader of the negotiation does, which waits for one byte after the other, the polled reader does too. -/
theorem consumes_of_ends [UnsignedVarint] {maxLen : UInt32} {bytes : List UInt8} {r : Except IoError (List UInt8)}
    (h : Ends (Erp.readLengthPrefixedFrame maxLen) (gets bytes) r) :
    Consumes (readLengthPrefixedFrame maxLen) bytes r := by
  obtain ⟨q, t, t', htrace, hheader, hrest⟩ := ends_bind_inv h
  obtain ⟨b₁, b₂, rfl, rfl, rfl⟩ := gets_eq_append htrace
  have hread := consumes_of_ends_header hheader
  obtain ⟨e, rfl, rfl, hnil⟩ | ⟨header, rfl, hrest⟩ := hrest
  · rw [List.map_eq_nil_iff.1 hnil, List.append_nil]
    exact Consumes.bind_error hread
  refine Consumes.bind hread ?_
  cases hlen : decodeLengthPrefixedPayloadLen header maxLen with
  | error e =>
    rw [hlen] at hrest
    have hend : Ends (throw e) (gets b₂) r := hrest
    generalize htrace : gets b₂ = trace at hend
    cases hend
    rw [List.map_eq_nil_iff.1 htrace]
    exact Consumes.bind_error (Consumes.ofExcept _)
  | ok payloadLen =>
    refine Consumes.bind_nil (Consumes.ofExcept _) ?_
    rw [hlen] at hrest
    obtain ⟨q, t, t', htrace, hbody, hdone⟩ := ends_bind_inv
      (show Ends (ExceptT.lift (Proc.readExact payloadLen) >>= fun payload => pure (header ++ payload)) (gets b₂) r
        from hrest)
    obtain ⟨b₃, b₄, rfl, rfl, rfl⟩ := gets_eq_append htrace
    obtain ⟨payload, rfl, hpayload⟩ := ends_lift_inv hbody
    obtain ⟨hgets, rfl⟩ := Proc.Runs.of_readExact hpayload
    obtain rfl := gets_inj hgets
    obtain ⟨e, hq, -⟩ | ⟨payload, hq, hdone⟩ := hdone
    · cases hq
    cases hq
    generalize htrace : gets b₄ = trace at hdone
    cases hdone
    rw [List.map_eq_nil_iff.1 htrace]
    exact Consumes.bind (Consumes.readExact _) (Consumes.pure _)

end Waiting

/-! ## What was read from any stream -/

section Returned

variable {x : ReadM α} {f : α → ReadM β} {i i' : InnerRead} {answers answers' : List Answer}

theorem bind_ok {b : β} (h : (x >>= f) i answers = some (.ok b, i', answers')) :
    ∃ a i₁ answers₁, x i answers = some (.ok a, i₁, answers₁) ∧ f a i₁ answers₁ = some (.ok b, i', answers') := by
  cases hx : x i answers with
  | none =>
    rw [bind_none hx] at h
    cases h
  | some r =>
    obtain ⟨r, i₁, answers₁⟩ := r
    cases r with
    | error e =>
      rw [ReadM.bind_error hx] at h
      cases h
    | ok a =>
      rw [bind_some hx] at h
      exact ⟨a, i₁, answers₁, rfl, h⟩

theorem pollRead_length {room : ℕ} (hroom : 0 < room) {a : Answer} {bytes : List UInt8}
    (h : i.pollRead room a = (i', .ready (.ok bytes))) : bytes.length ≤ room := by
  rcases i.pollRead_cases hroom a with ⟨hpoll, -⟩ | ⟨e, -, hpoll⟩ | ⟨-, -, hpoll⟩ | ⟨b, chunk, rest, -, hfit, hpoll⟩
  · rw [hpoll] at h
    cases h
  · rw [hpoll] at h
    cases h
  · rw [hpoll] at h
    cases h
    exact Nat.zero_le _
  · rw [hpoll] at h
    cases h
    exact hfit

theorem readExact_length {len : ℕ} {bytes : List UInt8}
    (h : readExact len i answers = some (.ok bytes, i', answers')) : bytes.length = len := by
  unfold readExact at h
  induction answers generalizing len i bytes with
  | nil =>
    cases len with
    | zero =>
      rw [readExactLoop_zero] at h
      cases h
      rfl
    | succ len => cases h
  | cons a answers ih =>
    cases len with
    | zero =>
      rw [readExactLoop_zero] at h
      cases h
      rfl
    | succ room =>
      rw [readExactLoop] at h
      split at h
      · exact ih h
      · cases h
      · rename_i i₁ chunk hpoll
        have hfit := pollRead_length (Nat.succ_pos room) hpoll
        split_ifs at h with hnil
        · cases h
        · split at h
          · rename_i rest i₂ answers₂ hrest
            cases h
            have := ih hrest
            rw [List.length_append]
            omega
          · rename_i hother
            exact absurd h (hother bytes i' answers')

/-- a header that was read ends with its first byte without the continuation bit -/
theorem readHeader_bytes {room : ℕ} {header header' : List UInt8} (hheader : ∀ b ∈ header, b &&& 0x80 ≠ 0)
    (h : readHeader room header i answers = some (.ok header', i', answers')) :
    ∃ init last, header' = init ++ [last] ∧ (∀ b ∈ init, b &&& 0x80 ≠ 0) ∧ last &&& 0x80 = 0 := by
  induction room generalizing header i answers with
  | zero => cases h
  | succ room ih =>
    obtain ⟨byte, i₁, answers₁, hbyte, h⟩ := bind_ok h
    obtain ⟨b, rfl⟩ := List.length_eq_one_iff.1 (readExact_length hbyte)
    simp only [getLastD_concat] at h
    split_ifs at h with hlast
    · cases h
      exact ⟨header, b, rfl, hheader, hlast⟩
    · refine ih (fun b' hb' => ?_) h
      rcases List.mem_append.1 hb' with hb' | hb'
      · exact hheader b' hb'
      · rw [List.mem_singleton.1 hb']
        exact hlast

theorem readLengthPrefixedFrame_decodes [UnsignedVarint] [LocalVarint] {maxLen : UInt32} {frame : List UInt8}
    (h : readLengthPrefixedFrame maxLen i answers = some (.ok frame, i', answers')) :
    ∃ headerLen payload, decodeLengthPrefix frame maxLen = .ok (headerLen, payload) ∧
      headerLen + payload.length = frame.length ∧ payload.length ≤ maxLen.toNat := by
  obtain ⟨header, i₁, answers₁, hheader, h⟩ := bind_ok h
  obtain ⟨payloadLen, i₂, answers₂, hpayloadLen, h⟩ := bind_ok h
  obtain ⟨body, i₃, answers₃, hbody, h⟩ := bind_ok h
  cases h
  have hlength := readExact_length hbody
  obtain ⟨init, last, rfl, hinit, hlast⟩ := readHeader_bytes (fun b hb => absurd hb List.not_mem_nil) hheader
  -- the header alone, and the header with the body behind it
  have hlocal := LocalVarint.decode_local init last body hinit hlast
  have hbytes : init ++ [last] ++ body = init ++ last :: body := by simp
  cases hdecode : decodeU32 (init ++ [last]) with
  | error e =>
    simp only [ofExcept, decodeLengthPrefixedPayloadLen, hdecode] at hpayloadLen
    cases hpayloadLen
  | ok r =>
    obtain ⟨n, rest⟩ := r
    rw [hdecode] at hlocal
    simp only [ofExcept, decodeLengthPrefixedPayloadLen, hdecode] at hpayloadLen
    split_ifs at hpayloadLen with hmax
    · cases hpayloadLen
    · cases hpayloadLen
      have hheaderLen : (init ++ [last] ++ body).length - body.length = (init ++ [last]).length := by
        rw [List.length_append, Nat.add_sub_cancel]
      refine ⟨(init ++ [last]).length, body, ?_, List.length_append.symm, ?_⟩
      · rw [decodeLengthPrefix, hbytes, hlocal]
        simp only [Except.map]
        rw [if_neg hmax, ← hbytes, hheaderLen, ← hlength, ← List.length_append, if_neg (lt_irrefl _), List.take_length,
          List.drop_left]
      · rw [hlength]
        exact UInt32.le_iff_toNat_le.1 (UInt32.not_lt.1 hmax)

/-- `read_postcard_frame` decodes the payload of the frame; its second look at the header never fails -/
theorem readPostcardFrame_eq [UnsignedVarint] [LocalVarint] {decode : List UInt8 → Option α} {maxLen : UInt32}
    {frame : List UInt8} (h : readLengthPrefixedFrame maxLen i answers = some (.ok frame, i', answers')) :
    ∃ headerLen payload, decodeLengthPrefix frame maxLen = .ok (headerLen, payload) ∧
      readPostcardFrame decode maxLen i answers =
        some ((decode payload).elim (.error ⟨.invalidData, "failed to decode postcard payload"⟩) .ok, i', answers') := by
  obtain ⟨headerLen, payload, hdecode, -, -⟩ := readLengthPrefixedFrame_decodes h
  refine ⟨headerLen, payload, hdecode, ?_⟩
  unfold readPostcardFrame
  rw [bind_some h, hdecode]
  rfl

end Returned

/-- **Framing round-trips.** For every limit:
- frames of payloads within the limit are read back in order, with exactly their bytes taken from the stream, whatever
  follows them and however the stream hands them over, as soon as it has; and `decode_length_prefix` finds each payload;
- a frame that was read from any stream is accepted by `decode_length_prefix`, and its header and payload are the frame;
- of a header of five bytes that goes on, or of one that announces more than the limit, nothing behind it is read. -/
theorem framing_round_trips [UnsignedVarint] [LocalVarint] (maxLen : UInt32) :
    (∀ payloads : List (List UInt8), (∀ p ∈ payloads, p.length ≤ maxLen.toNat) →
      ∃ frames, List.Forall₂ (fun p frame => encodeLengthPrefixed p maxLen = .ok frame ∧
          decodeLengthPrefix frame maxLen = .ok (frame.length - p.length, p)) payloads frames ∧
        ∀ (i : InnerRead) (trailing : List UInt8) (answers : List Answer), i.left = frames.flatten ++ trailing →
          NoFailure answers →
          (readFrames maxLen payloads.length i answers = none ∧ readies answers < frames.flatten.length ∨
            ∃ answers', readFrames maxLen payloads.length i answers =
              some (.ok frames, ⟨i.taken ++ frames.flatten, trailing, i.ended⟩, answers'))) ∧
    (∀ (i i' : InnerRead) (answers answers' : List Answer) (frame : List UInt8),
      readLengthPrefixedFrame maxLen i answers = some (.ok frame, i', answers') →
      ∃ headerLen payload, decodeLengthPrefix frame maxLen = .ok (headerLen, payload) ∧
        headerLen + payload.length = frame.length ∧ payload.length ≤ maxLen.toNat) ∧
    (∀ header : List UInt8, header.length = 5 → (∀ b ∈ header, b &&& 0x80 ≠ 0) →
      Consumes (readLengthPrefixedFrame maxLen) header
        (.error ⟨.invalidData, "frame length prefix exceeds u32 varint width"⟩)) ∧
    ∀ (init : List UInt8) (last : UInt8) (n : UInt32) (rest : List UInt8), (∀ b ∈ init, b &&& 0x80 ≠ 0) →
      last &&& 0x80 = 0 → init.length < 5 → decodeU32 (init ++ [last]) = .ok (n, rest) → maxLen < n →
      Consumes (readLengthPrefixedFrame maxLen) (init ++ [last])
        (.error ⟨.invalidData, "frame length exceeds configured maximum"⟩) := by
  refine ⟨fun payloads hlen => ⟨payloads.map frameBytes, ?_, ?_⟩, fun i i' answers answers' frame h =>
    readLengthPrefixedFrame_decodes h, fun header hlength hheader => consumes_overlong hheader hlength,
    fun init last n rest hinit hlast hroom hdecode hn => consumes_too_long hinit hlast hroom hdecode hn⟩
  · rw [List.forall₂_map_right_iff, List.forall₂_same]
    intro p hp
    have hframe := hlen p hp
    refine ⟨encodeLengthPrefixed_eq hframe, ?_⟩
    rw [frameBytes, decodeLengthPrefix_frame hframe, List.length_append, Nat.add_sub_cancel]
  · intro i trailing answers hleft hfail
    rcases consumes_frames hlen i trailing answers hleft hfail with hwait | ⟨used, answers', -, -, h⟩
    · exact .inl hwait
    · exact .inr ⟨answers', h⟩

end ReadM

section Witness

open ReadM

theorem takeVarintLoop_local (lastMax left shift out : ℕ) {init : List UInt8} {last : UInt8} (rest : List UInt8)
    (hinit : ∀ b ∈ init, b &&& 0x80 ≠ 0) (hlast : last &&& 0x80 = 0) :
    takeVarintLoop lastMax left shift out (init ++ last :: rest) =
      (takeVarintLoop lastMax left shift out (init ++ [last])).map fun r => (r.1, rest) := by
  have hlow := (continuation_iff last).1 hlast
  induction init generalizing left shift out with
  | nil =>
    cases left with
    | zero => rfl
    | succ left =>
      simp only [takeVarintLoop, List.nil_append, hlow, if_true]
      split_ifs <;> rfl
  | cons b init ih =>
    have hhigh : ¬ b.toNat < 128 := fun h => hinit b List.mem_cons_self ((continuation_iff b).2 h)
    cases left with
    | zero => rfl
    | succ left =>
      simp only [takeVarintLoop, List.cons_append, hhigh, if_false]
      exact ih _ _ _ fun b' hb' => hinit b' (List.mem_cons_of_mem _ hb')

theorem leb128_decode (bytes : List UInt8) : @decodeU32 leb128 bytes =
    match takeTag bytes with
    | some (n, rest) => .ok (UInt32.ofNat n, rest)
    | none => .error "not enough input bytes" := rfl

theorem leb128_local : @LocalVarint leb128 := by
  refine @LocalVarint.mk leb128 fun init last rest hinit hlast => ?_
  have hloop : takeTag (init ++ last :: rest) = (takeTag (init ++ [last])).map fun r => (r.1, rest) :=
    takeVarintLoop_local 15 5 0 0 rest hinit hlast
  rw [leb128_decode, leb128_decode, hloop]
  cases takeTag (init ++ [last]) <;> rfl

/-- two frames and a byte behind them, in three pieces with a pause -/
theorem framing_round_trips_of_two :
    letI := leb128
    ∃ answers', readFrames 16 2 ⟨[], [2, 5, 6, 0, 9], false⟩ [.ready 1, .pending, .ready 0, .ready 7, .ready 7] =
      some (.ok [[2, 5, 6], [0]], ⟨[2, 5, 6, 0], [9], false⟩, answers') := by
  let _ := leb128
  have _ := leb128_local
  obtain ⟨hround, -⟩ := framing_round_trips 16
  obtain ⟨frames, hframes, hread⟩ := hround [[5, 6], []] (by decide)
  cases hframes with
  | cons h₁ hrest =>
    cases hrest with
    | cons h₂ hnil =>
      cases hnil
      have he₁ : encodeLengthPrefixed [5, 6] 16 = .ok [2, 5, 6] := by decide +kernel
      have he₂ : encodeLengthPrefixed [] 16 = .ok [0] := by decide +kernel
      obtain rfl := Except.ok.inj (he₁.symm.trans h₁.1)
      obtain rfl := Except.ok.inj (he₂.symm.trans h₂.1)
      have hfail : NoFailure [.ready 1, .pending, .ready 0, .ready 7, .ready 7] := by
        intro e he
        simp at he
      exact (hread ⟨[], [2, 5, 6, 0, 9], false⟩ [9] _ rfl hfail).resolve_left fun h => absurd h.2 (by decide)

end Witness

end Erp

end RustProof
