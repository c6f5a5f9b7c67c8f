/-
Multistream negotiation of erp-runtime (`transport/multistream.rs`, over `length_prefixed.rs` of rp-codec).

The dialer sends the multistream header, reads the listener's, sends the protocol it wants and reads the listener's choice;
the listener reads the header, sends its own, reads the protocol, and answers with the same name or with `na`. Names travel
as lines: UTF-8, a newline, and in front the length as a varint. Both sides are processes over a duplex stream of bytes
(`Lib/Duplex`), so that every interleaving and every way to cut the stream into pieces is a run of theirs.

The varints are those of the crate `unsigned_varint`: a parameter with the two laws of its documentation.

Results:
- `multistream_agrees`: dialer and listener end in every run, with the same answer, and leave in both directions exactly
  what was written after the negotiation.
-/
import RustProof.Lib.Duplex
import RustProof.Runtime.Registry

namespace RustProof

/-- the crate `unsigned_varint` -/
class UnsignedVarint where
  encodeU32 : UInt32 → List UInt8
  /-- the number and what follows it, or the text of the error -/
  decodeU32 : List UInt8 → Except String (UInt32 × List UInt8)
  decode_encode : ∀ n rest, decodeU32 (encodeU32 n ++ rest) = .ok (n, rest)
  /-- all bytes but the last have their highest bit set, and there are at most five -/
  encode_bytes : ∀ n, ∃ init last, encodeU32 n = init ++ [last] ∧ (∀ b ∈ init, b &&& 0x80 ≠ 0) ∧ last &&& 0x80 = 0 ∧
    init.length < 5

export UnsignedVarint (encodeU32 decodeU32)

namespace Erp

/-- what reads and writes a stream and may fail -/
abbrev StreamM (ε : Type) := ExceptT ε (Proc UInt8)

section Multistream

variable [UnsignedVarint]

/-! ## Length-prefixed frames -/

def encodeLengthPrefixed (payload : List UInt8) (maxLen : UInt32) : Except IoError (List UInt8) :=
  if payload.length > maxLen.toNat then .error ⟨.invalidData, "payload exceeds configured frame length limit"⟩
  else .ok (encodeU32 (UInt32.ofNat payload.length) ++ payload)

/-- the length of the header, and the payload -/
def decodeLengthPrefix (input : List UInt8) (maxLen : UInt32) : Except IoError (ℕ × List UInt8) :=
  match decodeU32 input with
  | .error e => .error ⟨.invalidData, "invalid length prefix: " ++ e⟩
  | .ok (payloadLen, remaining) =>
    if payloadLen > maxLen then .error ⟨.invalidData, "length prefix exceeds configured frame length limit"⟩
    else
      let headerLen := input.length - remaining.length
      let totalLen := headerLen + payloadLen.toNat
      if input.length < totalLen then .error ⟨.unexpectedEof, "frame body shorter than advertised length"⟩
      else .ok (headerLen, (input.take totalLen).drop headerLen)

def decodeLengthPrefixedPayloadLen (header : List UInt8) (maxLen : UInt32) : Except IoError ℕ :=
  match decodeU32 header with
  | .error e => .error ⟨.invalidData, "invalid frame length prefix: " ++ e⟩
  | .ok (payloadLen, _) =>
    if payloadLen > maxLen then .error ⟨.invalidData, "frame length exceeds configured maximum"⟩
    else .ok payloadLen.toNat

/-- the loop of `read_length_prefixed_frame`, with room for `room` more bytes -/
def readHeader : (room : ℕ) → (header : List UInt8) → StreamM IoError (List UInt8)
  | 0, _ => throw ⟨.invalidData, "frame length prefix exceeds u32 varint width"⟩
  | room + 1, header => do
    let b ← ExceptT.lift (.get .done)
    if b &&& 0x80 = 0 then return header ++ [b] else readHeader room (header ++ [b])

def readLengthPrefixedFrame (maxLen : UInt32) : StreamM IoError (List UInt8) := do
  let header ← readHeader 5 []
  let payloadLen ← decodeLengthPrefixedPayloadLen header maxLen
  let payload ← ExceptT.lift (Proc.readExact payloadLen)
  return header ++ payload

/-! ## Lines -/

/-- `MULTISTREAM_V1` -/
def multistreamV1 : String := "/multistream/1.0.0"

/-- `MULTISTREAM_NOT_AVAILABLE` -/
def multistreamNotAvailable : String := "na"

/-- `MAX_PROTOCOL_FRAME_LEN` -/
def maxProtocolFrameLen : ℕ := 16 * 1024

/-- `str::as_bytes` -/
def asBytes (protocol : String) : List UInt8 := protocol.toByteArray.data.toList

/-- the last byte is a newline -/
def endsWithNewline (line : List UInt8) : Bool := line.getLast? = some 10

def writeProtocol (protocol : String) : StreamM RuntimeError Unit :=
  let line := if endsWithNewline (asBytes protocol) then asBytes protocol else asBytes protocol ++ [10]
  if line.length > maxProtocolFrameLen then
    throw (.networkError ⟨.invalidData, "multistream protocol line exceeds maximum frame length"⟩)
  else do
    let frame ← (encodeLengthPrefixed line (UInt32.ofNat maxProtocolFrameLen)).mapError RuntimeError.networkError
    ExceptT.lift (Proc.writeAll frame)

def readProtocol (maxLen : ℕ) : StreamM RuntimeError String := do
  let frameLimit := UInt32.ofNat (min maxLen maxProtocolFrameLen)
  let frame ← (readLengthPrefixedFrame frameLimit).adapt RuntimeError.networkError
  let (_, line) ← (decodeLengthPrefix frame frameLimit).mapError RuntimeError.networkError
  if endsWithNewline line then
    match String.fromUTF8? ⟨line.dropLast.toArray⟩ with
    | some protocol => return protocol
    | none => throw (.networkError ⟨.invalidData, "multistream protocol line is not valid UTF-8"⟩)
  else throw (.networkError ⟨.invalidData, "multistream protocol line is not newline terminated"⟩)

/-! ## Selection -/

def dialerSelect (protocol : String) : StreamM RuntimeError Unit := do
  writeProtocol multistreamV1
  let remoteHeader ← readProtocol maxProtocolFrameLen
  if remoteHeader ≠ multistreamV1 then throw (.config "remote did not acknowledge multistream v1")
  else
    writeProtocol protocol
    let selected ← readProtocol maxProtocolFrameLen
    if selected = protocol then return ()
    else if selected = multistreamNotAvailable then throw (.config "remote rejected requested protocol")
    else throw (.config "remote acknowledged an unexpected protocol")

def listenerSelectOptional (supported : List String) : StreamM RuntimeError (Option String) := do
  let remoteHeader ← readProtocol maxProtocolFrameLen
  if remoteHeader ≠ multistreamV1 then throw (.config "remote did not initiate multistream v1 negotiation")
  else
    writeProtocol multistreamV1
    let requested ← readProtocol maxProtocolFrameLen
    if supported.any fun candidate => candidate = requested then
      writeProtocol requested
      return some requested
    else
      writeProtocol multistreamNotAvailable
      return none

end Multistream

/-! ## Names -/

/-- a name as it can be a protocol -/
structure ValidName (name : String) : Prop where
  slash : name.toList.head? = some '/'
  oneLine : '\n' ∉ name.toList
  fits : (asBytes name).length < maxProtocolFrameLen

/-- a newline byte is a newline character -/
theorem utf8EncodeChar_getLast? {c : Char} (h : (String.utf8EncodeChar c).getLast? = some 10) : c = '\n' := by
  have hlast (n : ℕ) : (10 : UInt8) ≠ UInt8.ofNat (n % 64 + 128) := by
    intro heq
    have := congrArg UInt8.toNat heq
    rw [UInt8.toNat_ofNat'] at this
    simp only [UInt8.reduceToNat] at this
    omega
  unfold String.utf8EncodeChar at h
  dsimp only at h
  split_ifs at h with h₁
  · have hnat : c.val.toNat = 10 := by
      have hbyte : UInt8.ofNat c.val.toNat = 10 := Option.some.inj h
      have := congrArg UInt8.toNat hbyte
      rw [UInt8.toNat_ofNat'] at this
      simp only [UInt8.reduceToNat] at this
      omega
    exact Char.ext (UInt32.toNat_inj.1 hnat)
  · exact absurd (Option.some.inj h).symm (hlast _)
  · exact absurd (Option.some.inj h).symm (hlast _)
  · exact absurd (Option.some.inj h).symm (hlast _)

theorem asBytes_eq (name : String) : asBytes name = name.toList.flatMap String.utf8EncodeChar := by
  rw [asBytes, ← String.utf8Encode_toList, List.utf8Encode, List.data_toByteArray]

/-- a name without newlines does not end with one -/
theorem endsWithNewline_asBytes {name : String} (h : '\n' ∉ name.toList) : endsWithNewline (asBytes name) = false := by
  rw [asBytes_eq]
  refine decide_eq_false fun hlast => ?_
  rcases List.eq_nil_or_concat name.toList with hnil | ⟨init, c, hconcat⟩
  · rw [hnil] at hlast
    exact nomatch hlast
  · rw [hconcat, List.concat_eq_append] at hlast h
    rw [List.flatMap_append, List.flatMap_singleton, List.getLast?_append_of_ne_nil _ String.utf8EncodeChar_ne_nil] at hlast
    exact h (List.mem_append_right _ (List.mem_singleton.2 (utf8EncodeChar_getLast? hlast).symm))

theorem fromUTF8?_asBytes (name : String) : String.fromUTF8? ⟨(asBytes name).toArray⟩ = some name := by
  rw [asBytes, Array.toArray_toList]
  exact dif_pos name.isValidUTF8

/-! ## What a line looks like on the stream -/

section Ends

open Proc (puts gets)

variable {ε ε' α β : Type} {trace trace' : List (Proc.Event UInt8)}

/-- `x` does what the trace says and ends with `r` -/
def Ends (x : StreamM ε α) (trace : List (Proc.Event UInt8)) (r : Except ε α) : Prop := x.run.Runs trace (.done r)

namespace Ends

theorem pure (a : α) : Ends (Pure.pure a : StreamM ε α) [] (.ok a) := .refl _

theorem throw (e : ε) : Ends (MonadExcept.throw e : StreamM ε α) [] (.error e) := .refl _

theorem bind {x : StreamM ε α} {f : α → StreamM ε β} {a : α} {r : Except ε β} (h : Ends x trace (.ok a))
    (h' : Ends (f a) trace' r) : Ends (x >>= f) (trace ++ trace') r :=
  Proc.Runs.seq h h'

/-- the first part leaves the stream alone -/
theorem bind_silent {x : StreamM ε α} {f : α → StreamM ε β} {a : α} {r : Except ε β} (h : Ends x [] (.ok a))
    (h' : Ends (f a) trace r) : Ends (x >>= f) trace r :=
  bind h h'

theorem lift {p : Proc UInt8 α} {a : α} (h : p.Runs trace (.done a)) :
    Ends (ExceptT.lift p : StreamM ε α) trace (.ok a) :=
  h.bind (Pure.pure ∘ Except.ok)

theorem ofExcept (e : Except ε α) : Ends (liftM e : StreamM ε α) [] e := .refl _

theorem adapt {x : StreamM ε α} {a : α} (f : ε → ε') (h : Ends x trace (.ok a)) : Ends (x.adapt f) trace (.ok a) :=
  Proc.Runs.bind h (Pure.pure ∘ Except.mapError f)

end Ends

theorem readHeader_ends {init : List UInt8} {last : UInt8} (hinit : ∀ b ∈ init, b &&& 0x80 ≠ 0) (hlast : last &&& 0x80 = 0)
    {room : ℕ} (hroom : init.length < room) (header : List UInt8) :
    Ends (readHeader room header) (gets (init ++ [last])) (.ok (header ++ (init ++ [last]))) := by
  induction init generalizing room header with
  | nil =>
    cases room with
    | zero => exact absurd hroom (Nat.not_lt_zero _)
    | succ room =>
      refine Ends.bind (Ends.lift (.get (.refl _))) (?_ : Ends _ [] _)
      rw [if_pos hlast]
      exact .pure _
  | cons b init ih =>
    cases room with
    | zero => exact absurd hroom (Nat.not_lt_zero _)
    | succ room =>
      refine Ends.bind (Ends.lift (.get (.refl _))) (?_ : Ends _ (gets (init ++ [last])) _)
      rw [if_neg (hinit b List.mem_cons_self)]
      have hrest := ih (fun b' hb' => hinit b' (List.mem_cons_of_mem _ hb')) (Nat.lt_of_succ_lt_succ hroom) (header ++ [b])
      rwa [List.append_assoc] at hrest

theorem length_line {name : String} (hfits : (asBytes name).length < maxProtocolFrameLen) :
    (asBytes name ++ [10]).length ≤ (UInt32.ofNat maxProtocolFrameLen).toNat := by
  rw [List.length_append, List.length_singleton]
  exact hfits

section Frame

variable {payload : List UInt8} {maxLen : UInt32} (hlen : payload.length ≤ maxLen.toNat)

include hlen

theorem toNat_payloadLen : (UInt32.ofNat payload.length).toNat = payload.length := by
  rw [UInt32.toNat_ofNat']
  have := maxLen.toNat_lt
  omega

theorem not_payloadLen_gt : ¬ UInt32.ofNat payload.length > maxLen := by
  intro h
  have := UInt32.lt_iff_toNat_lt.1 h
  rw [toNat_payloadLen hlen] at this
  omega

variable [UnsignedVarint]

theorem readLengthPrefixedFrame_ends :
    Ends (readLengthPrefixedFrame maxLen) (gets (encodeU32 (UInt32.ofNat payload.length) ++ payload))
      (.ok (encodeU32 (UInt32.ofNat payload.length) ++ payload)) := by
  obtain ⟨init, last, hbytes, hinit, hlast, hroom⟩ := UnsignedVarint.encode_bytes (UInt32.ofNat payload.length)
  have hdecode : decodeLengthPrefixedPayloadLen (encodeU32 (UInt32.ofNat payload.length)) maxLen = .ok payload.length := by
    have hround := UnsignedVarint.decode_encode (UInt32.ofNat payload.length) []
    rw [List.append_nil] at hround
    rw [decodeLengthPrefixedPayloadLen, hround]
    dsimp only
    rw [if_neg (not_payloadLen_gt hlen), toNat_payloadLen hlen]
  rw [gets, List.map_append]
  refine Ends.bind (a := encodeU32 (UInt32.ofNat payload.length)) ?_ ?_
  · rw [hbytes]
    exact readHeader_ends hinit hlast hroom []
  · rw [hdecode]
    refine Ends.bind_silent (Ends.ofExcept _) ?_
    rw [← List.append_nil (payload.map _)]
    exact Ends.bind (Ends.lift (.readExact payload)) (.pure _)

theorem decodeLengthPrefix_frame :
    decodeLengthPrefix (encodeU32 (UInt32.ofNat payload.length) ++ payload) maxLen =
      .ok ((encodeU32 (UInt32.ofNat payload.length)).length, payload) := by
  rw [decodeLengthPrefix, UnsignedVarint.decode_encode]
  dsimp only
  rw [if_neg (not_payloadLen_gt hlen), List.length_append, Nat.add_sub_cancel, toNat_payloadLen hlen, if_neg (lt_irrefl _),
    ← List.length_append, List.take_length, List.drop_left]

end Frame

/-- the application data that a side writes after the negotiation -/
def thenWrites (x : StreamM RuntimeError α) (data : Except RuntimeError α → List UInt8) :
    Proc UInt8 (Except RuntimeError α) :=
  x.run.bind fun r => (Proc.writeAll (data r)).bind fun () => .done r

theorem thenWrites_runs {x : StreamM RuntimeError α} {r : Except RuntimeError α} (h : Ends x trace r)
    (data : Except RuntimeError α → List UInt8) : (thenWrites x data).Runs (trace ++ puts (data r)) (.done r) :=
  Proc.Runs.seq h ((Proc.Runs.writeAll (data r)).bind fun () => .done r)

theorem multistreamV1_line : '\n' ∉ multistreamV1.toList ∧ (asBytes multistreamV1).length < maxProtocolFrameLen := by
  decide

theorem multistreamNotAvailable_line :
    '\n' ∉ multistreamNotAvailable.toList ∧ (asBytes multistreamNotAvailable).length < maxProtocolFrameLen := by
  decide

/-- a name as it goes over the stream -/
def frameOf [UnsignedVarint] (name : String) : List UInt8 :=
  encodeU32 (UInt32.ofNat (asBytes name ++ [10]).length) ++ (asBytes name ++ [10])

variable [UnsignedVarint]

theorem writeProtocol_ends {name : String} (hline : '\n' ∉ name.toList)
    (hfits : (asBytes name).length < maxProtocolFrameLen) :
    Ends (writeProtocol name) (puts (frameOf name)) (.ok ()) := by
  have hlen := length_line hfits
  rw [writeProtocol, endsWithNewline_asBytes hline]
  simp only [Bool.false_eq_true, if_false]
  have hmax : ¬ (asBytes name ++ [10]).length > maxProtocolFrameLen := Nat.not_lt.2 hlen
  rw [if_neg hmax, encodeLengthPrefixed, if_neg (Nat.not_lt.2 hlen)]
  exact Ends.bind_silent (Ends.ofExcept _) (Ends.lift (.writeAll _))

theorem readProtocol_ends {name : String} (hfits : (asBytes name).length < maxProtocolFrameLen) :
    Ends (readProtocol maxProtocolFrameLen) (gets (frameOf name)) (.ok name) := by
  have hlen := length_line hfits
  rw [readProtocol, ← List.append_nil (gets _), Nat.min_self]
  refine Ends.bind (Ends.adapt _ (readLengthPrefixedFrame_ends hlen)) ?_
  rw [decodeLengthPrefix_frame hlen]
  refine Ends.bind_silent (Ends.ofExcept _) ?_
  dsimp only
  have hnewline : endsWithNewline (asBytes name ++ [10]) = true := decide_eq_true List.getLast?_concat
  rw [if_pos hnewline, List.dropLast_concat, fromUTF8?_asBytes]
  exact .pure name

/-! ## Agreement -/

/-- what the listener answers -/
def selection (supported : List String) (protocol : String) : String :=
  if protocol ∈ supported then protocol else multistreamNotAvailable

def dialerResult (supported : List String) (protocol : String) : Except RuntimeError Unit :=
  if protocol ∈ supported then .ok () else .error (.config "remote rejected requested protocol")

def listenerResult (supported : List String) (protocol : String) : Except RuntimeError (Option String) :=
  .ok (if protocol ∈ supported then some protocol else none)

theorem dialerSelect_ends {protocol : String} (hp : ValidName protocol) (supported : List String) :
    Ends (dialerSelect protocol)
      (puts (frameOf multistreamV1) ++ (gets (frameOf multistreamV1) ++
        (puts (frameOf protocol) ++ (gets (frameOf (selection supported protocol)) ++ []))))
      (dialerResult supported protocol) := by
  have hna : multistreamNotAvailable ≠ protocol := by
    rintro rfl
    exact nomatch hp.slash
  refine Ends.bind (writeProtocol_ends multistreamV1_line.1 multistreamV1_line.2) ?_
  refine Ends.bind (readProtocol_ends multistreamV1_line.2) ?_
  rw [if_neg (not_not.2 rfl)]
  refine Ends.bind (writeProtocol_ends hp.oneLine hp.fits) ?_
  by_cases hmem : protocol ∈ supported
  · rw [selection, dialerResult, if_pos hmem, if_pos hmem]
    refine Ends.bind (readProtocol_ends hp.fits) ?_
    rw [if_pos rfl]
    exact .pure ()
  · rw [selection, dialerResult, if_neg hmem, if_neg hmem]
    refine Ends.bind (readProtocol_ends multistreamNotAvailable_line.2) ?_
    rw [if_neg hna, if_pos rfl]
    exact .throw _

theorem listenerSelectOptional_ends {protocol : String} (hp : ValidName protocol) (supported : List String) :
    Ends (listenerSelectOptional supported)
      (gets (frameOf multistreamV1) ++ (puts (frameOf multistreamV1) ++
        (gets (frameOf protocol) ++ (puts (frameOf (selection supported protocol)) ++ []))))
      (listenerResult supported protocol) := by
  refine Ends.bind (readProtocol_ends multistreamV1_line.2) ?_
  rw [if_neg (not_not.2 rfl)]
  refine Ends.bind (writeProtocol_ends multistreamV1_line.1 multistreamV1_line.2) ?_
  refine Ends.bind (readProtocol_ends hp.fits) ?_
  have hany : (supported.any fun candidate => candidate = protocol) = true ↔ protocol ∈ supported := by
    simp only [List.any_eq_true, decide_eq_true_eq, exists_eq_right]
  by_cases hmem : protocol ∈ supported
  · rw [selection, listenerResult, if_pos hmem, if_pos hmem, if_pos (hany.2 hmem)]
    exact Ends.bind (writeProtocol_ends hp.oneLine hp.fits) (.pure _)
  · rw [selection, listenerResult, if_neg hmem, if_neg hmem, if_neg (mt hany.1 hmem)]
    exact Ends.bind (writeProtocol_ends multistreamNotAvailable_line.1 multistreamNotAvailable_line.2) (.pure _)

/-! ## Both sides -/

/-- dialer and listener at the two ends of a stream -/
def negotiation (protocol : String) (supported : List String) (dialerData : Except RuntimeError Unit → List UInt8)
    (listenerData : Except RuntimeError (Option String) → List UInt8) :
    Duplex UInt8 (Except RuntimeError Unit) (Except RuntimeError (Option String)) :=
  ⟨thenWrites (dialerSelect protocol) dialerData, thenWrites (listenerSelectOptional supported) listenerData, [], []⟩

/-- both sides have their result, and what is on the way is application data -/
def agreement (protocol : String) (supported : List String) (dialerData : Except RuntimeError Unit → List UInt8)
    (listenerData : Except RuntimeError (Option String) → List UInt8) :
    Duplex UInt8 (Except RuntimeError Unit) (Except RuntimeError (Option String)) :=
  ⟨.done (dialerResult supported protocol), .done (listenerResult supported protocol),
    dialerData (dialerResult supported protocol), listenerData (listenerResult supported protocol)⟩

/-- one run, message by message -/
theorem negotiation_steps {protocol : String} (hp : ValidName protocol) (supported : List String)
    (dialerData : Except RuntimeError Unit → List UInt8)
    (listenerData : Except RuntimeError (Option String) → List UInt8) :
    ∃ n, (Duplex.machine (negotiation protocol supported dialerData listenerData)).Steps n
      (negotiation protocol supported dialerData listenerData) (agreement protocol supported dialerData listenerData) := by
  have hd := thenWrites_runs (dialerSelect_ends hp supported) dialerData
  have hl := thenWrites_runs (listenerSelectOptional_ends hp supported) listenerData
  simp only [List.append_assoc, List.nil_append] at hd hl
  obtain ⟨d₁, hd₁, hd⟩ := hd.cut
  obtain ⟨d₂, hd₂, hd⟩ := hd.cut
  obtain ⟨d₃, hd₃, hd⟩ := hd.cut
  obtain ⟨d₄, hd₄, hd₅⟩ := hd.cut
  obtain ⟨l₁, hl₁, hl⟩ := hl.cut
  obtain ⟨l₂, hl₂, hl⟩ := hl.cut
  obtain ⟨l₃, hl₃, hl⟩ := hl.cut
  obtain ⟨l₄, hl₄, hl₅⟩ := hl.cut
  exact ⟨_, (Duplex.steps_message_right hd₁ hl₁).trans <| (Duplex.steps_message_left hd₂ hl₂).trans <|
    (Duplex.steps_message_right hd₃ hl₃).trans <| (Duplex.steps_message_left hd₄ hl₄).trans <|
    (Duplex.steps_left_puts hd₅ l₄ [] []).trans (Duplex.steps_right_puts hl₅ _ _ [])⟩

/-- **Multistream negotiation agrees.** For every protocol name and every list of supported names, and whatever both sides
write afterwards: there is a bound on the length of all runs, and in every state in which neither side can go on both have
returned, the dialer with success exactly if the protocol is supported, the listener with the protocol then and with none
otherwise, and in both directions exactly the application data is unread. -/
theorem multistream_agrees {protocol : String} (hp : ValidName protocol) (supported : List String)
    (dialerData : Except RuntimeError Unit → List UInt8)
    (listenerData : Except RuntimeError (Option String) → List UInt8) :
    ∃ n, ∀ k σ, (Duplex.machine (negotiation protocol supported dialerData listenerData)).Steps k
        (negotiation protocol supported dialerData listenerData) σ →
      k ≤ n ∧
      ((Duplex.machine (negotiation protocol supported dialerData listenerData)).Final σ →
        ∃ d l, σ = ⟨.done d, .done l, dialerData d, listenerData l⟩ ∧ (d = .ok () ↔ protocol ∈ supported) ∧
          l = .ok (if protocol ∈ supported then some protocol else none)) := by
  obtain ⟨n, hn⟩ := negotiation_steps hp supported dialerData listenerData
  have hfinal := Duplex.final_done (negotiation protocol supported dialerData listenerData) (dialerResult supported protocol)
    (listenerResult supported protocol) (dialerData (dialerResult supported protocol))
    (listenerData (listenerResult supported protocol))
  refine ⟨n, fun k σ hσ => ?_⟩
  obtain ⟨j, rfl, hrest⟩ := hn.complete (Duplex.commutes _) hfinal hσ
  refine ⟨Nat.le_add_right k j, fun h => ⟨_, _, hrest.eq_of_final h, ?_, rfl⟩⟩
  unfold dialerResult
  split_ifs with hmem
  · exact iff_of_true rfl hmem
  · exact iff_of_false nofun hmem

end Ends

section Witness

/-! ### The protocols of a session -/

theorem continuation_iff (b : UInt8) : b &&& 0x80 = 0 ↔ b.toNat < 128 := by
  have hall : ∀ m : Fin 256, (UInt8.ofNat m &&& 0x80 = 0) ↔ m.val < 128 := by decide +kernel
  have hb := hall ⟨b.toNat, b.toNat_lt⟩
  rwa [UInt8.ofNat_toNat] at hb

theorem varint_bytes (max n : ℕ) (h : n < 128 ^ (max + 1)) :
    ∃ init last, varint (max + 1) n = init ++ [last] ∧ (∀ b ∈ init, b &&& 0x80 ≠ 0) ∧ last &&& 0x80 = 0 ∧
      init.length < max + 1 := by
  have hlow : ∀ m : Fin 128, UInt8.ofNat m &&& 0x80 = 0 := by decide
  have hhigh : ∀ m : Fin 128, UInt8.ofNat (m + 128) &&& 0x80 ≠ 0 := by decide
  induction max generalizing n with
  | zero =>
    have hn : n < 128 := by omega
    exact ⟨[], UInt8.ofNat n, by rw [varint, if_pos hn]; rfl, nofun, hlow ⟨n, hn⟩, Nat.zero_lt_one⟩
  | succ max ih =>
    by_cases hn : n < 128
    · exact ⟨[], UInt8.ofNat n, by rw [varint, if_pos hn]; rfl, nofun, hlow ⟨n, hn⟩, Nat.succ_pos _⟩
    · obtain ⟨init, last, hbytes, hinit, hlast, hlen⟩ := ih (n / 128) (Nat.div_lt_of_lt_mul (by rw [← pow_succ']; exact h))
      refine ⟨UInt8.ofNat (n % 128 + 128) :: init, last, ?_, ?_, hlast, Nat.succ_lt_succ hlen⟩
      · rw [varint, if_neg hn, hbytes]
        rfl
      · rw [List.forall_mem_cons]
        exact ⟨hhigh ⟨n % 128, Nat.mod_lt _ (by decide)⟩, hinit⟩

/-- LEB128 -/
@[reducible] def leb128 : UnsignedVarint where
  encodeU32 n := putTag n.toNat
  decodeU32 bytes :=
    match takeTag bytes with
    | some (n, rest) => .ok (UInt32.ofNat n, rest)
    | none => .error "not enough input bytes"
  decode_encode n rest := by
    rw [decodes_tag n.toNat_lt rest]
    dsimp only
    rw [UInt32.ofNat_toNat]
  encode_bytes n := varint_bytes 4 n.toNat (n.toNat_lt.trans (by decide))

/-- `SYNC_PROTOCOL` -/
def syncProtocol : String := "/rust-proof/sync/1"

theorem multistream_agrees_of_sync :
    letI := leb128
    ∃ n, ∀ k σ, (Duplex.machine (negotiation syncProtocol [syncProtocol] (fun _ => [1]) fun _ => [2])).Steps k
        (negotiation syncProtocol [syncProtocol] (fun _ => [1]) fun _ => [2]) σ →
      k ≤ n ∧
      ((Duplex.machine (negotiation syncProtocol [syncProtocol] (fun _ => [1]) fun _ => [2])).Final σ →
        ∃ d l, σ = ⟨.done d, .done l, [1], [2]⟩ ∧ (d = .ok () ↔ syncProtocol ∈ [syncProtocol]) ∧
          l = .ok (if syncProtocol ∈ [syncProtocol] then some syncProtocol else none)) :=
  letI := leb128
  multistream_agrees ⟨by decide, by decide, by decide⟩ [syncProtocol] (fun _ => [1]) fun _ => [2]

end Witness

end Erp

end RustProof
