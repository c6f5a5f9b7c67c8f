/-
Streams of frames: in front of every body its length as two big-endian bytes.

`frames` is what a sender of bodies puts on the wire. The code is prefix free, so a stream can be cut into frames in one way
only:
- `frames_eq_of_prefix`: a header with as many bytes behind it as it says is the first frame of the stream;
- `Incomplete`: no whole frame stands at the front. What is left of a stream behind its last whole frame is either nothing
  or the stream ends inside a frame (`not_framed_of_incomplete`), and it is no further than a stream that stops earlier
  (`length_le_of_frames_prefix`).
-/
import RustProof.Lib.Bytes

namespace RustProof

/-- a frame with this body -/
def frame (body : List UInt8) : List UInt8 := u16ToBe (UInt16.ofNat body.length) ++ body

def frames (bodies : List (List UInt8)) : List UInt8 := bodies.flatMap frame

/-- the length field can say how long the body is -/
def Fits (body : List UInt8) : Prop := body.length < 2 ^ 16

/-- a whole number of frames -/
def Framed (bytes : List UInt8) : Prop := ∃ bodies, (∀ body ∈ bodies, Fits body) ∧ bytes = frames bodies

/-- no whole frame stands at the front -/
def Incomplete (bytes : List UInt8) : Prop := ∀ body, Fits body → ¬ frame body <+: bytes

@[simp] theorem frames_nil : frames [] = [] := rfl

@[simp] theorem frames_cons (body : List UInt8) (bodies : List (List UInt8)) :
    frames (body :: bodies) = frame body ++ frames bodies := List.flatMap_cons

@[simp] theorem frames_append (l l' : List (List UInt8)) : frames (l ++ l') = frames l ++ frames l' :=
  List.flatMap_append

theorem frame_ne_nil (body : List UInt8) : frame body ≠ [] := by
  intro h
  have hlen := congrArg List.length h
  rw [frame, List.length_append, length_u16ToBe, List.length_nil] at hlen
  omega

theorem incomplete_nil : Incomplete [] := fun body _ h => frame_ne_nil body (List.prefix_nil.1 h)

section Cut

variable {body body' : List UInt8} {bodies : List (List UInt8)}

/-- the length field, read back -/
theorem toNat_u16OfBe_of_fits (h : Fits body) :
    (u16OfBe (u16ToBe (UInt16.ofNat body.length))).toNat = body.length := by
  rw [u16OfBe_u16ToBe, UInt16.toNat_ofNat', Nat.mod_eq_of_lt h]

/-- a frame is no longer than the bytes say that start with its length field -/
theorem length_of_frame_prefix {header bytes : List UInt8} (hfits : Fits body) (hheader : header.length = 2)
    (h : frame body <+: header ++ bytes) : body.length = (u16OfBe header).toNat ∧ body <+: bytes := by
  obtain ⟨rest, h⟩ := h
  rw [frame, List.append_assoc] at h
  obtain ⟨hhead, hbytes⟩ := List.append_inj h (by rw [length_u16ToBe, hheader])
  rw [← hhead, toNat_u16OfBe_of_fits hfits]
  exact ⟨rfl, rest, hbytes⟩

theorem frame_append_inj {x y : List UInt8} (hfits : Fits body) (hfits' : Fits body')
    (h : frame body ++ x = frame body' ++ y) : body = body' ∧ x = y := by
  have hfront : frame body <+: u16ToBe (UInt16.ofNat body'.length) ++ (body' ++ y) :=
    ⟨x, by rw [h, frame, List.append_assoc]⟩
  obtain ⟨hlen, hbody⟩ := length_of_frame_prefix hfits (length_u16ToBe _) hfront
  rw [toNat_u16OfBe_of_fits hfits'] at hlen
  have heq : body = body' := by
    rw [List.prefix_iff_eq_take, hlen, List.take_left] at hbody
    exact hbody
  rw [heq] at h
  exact ⟨heq, List.append_cancel_left h⟩

/-- a header with as many bytes behind it as it says is the first frame of the stream -/
theorem frames_eq_of_prefix {header bytes : List UInt8} (hfits : ∀ b ∈ bodies, Fits b) (hheader : header.length = 2)
    (hbytes : bytes.length = (u16OfBe header).toNat) (h : header ++ bytes <+: frames bodies) :
    header ++ bytes = frame bytes ∧ ∃ rest, bodies = bytes :: rest := by
  obtain ⟨tail, h⟩ := h
  cases bodies with
  | nil =>
    rw [frames_nil, List.append_assoc, List.append_eq_nil_iff] at h
    rw [h.1] at hheader
    exact nomatch hheader
  | cons b rest =>
    rw [frames_cons, frame, List.append_assoc, List.append_assoc] at h
    obtain ⟨hhead, htail⟩ := List.append_inj h (by rw [hheader, length_u16ToBe])
    rw [hhead, toNat_u16OfBe_of_fits (hfits b List.mem_cons_self)] at hbytes
    obtain ⟨hbody, -⟩ := List.append_inj htail hbytes
    rw [hbody]
    exact ⟨by rw [hhead, frame], rest, rfl⟩

/-- whole frames at the front can be left out -/
theorem Framed.of_append {rest : List UInt8} (hfits : ∀ b ∈ bodies, Fits b) (h : Framed (frames bodies ++ rest)) :
    Framed rest := by
  induction bodies with
  | nil => exact h
  | cons b bodies ih =>
    rw [List.forall_mem_cons] at hfits
    apply ih hfits.2
    obtain ⟨bodies', hfits', h⟩ := h
    rw [frames_cons, List.append_assoc] at h
    cases bodies' with
    | nil => exact absurd (List.append_eq_nil_iff.1 h).1 (frame_ne_nil b)
    | cons b' bodies' =>
      rw [List.forall_mem_cons] at hfits'
      rw [frames_cons] at h
      exact ⟨bodies', hfits'.2, (frame_append_inj hfits.1 hfits'.1 h).2⟩

/-- a stream that ends inside a frame -/
theorem not_framed_of_incomplete {rest : List UInt8} (hfits : ∀ b ∈ bodies, Fits b) (hrest : Incomplete rest)
    (hne : rest ≠ []) : ¬ Framed (frames bodies ++ rest) := by
  intro h
  obtain ⟨bodies', hfits', rfl⟩ := h.of_append hfits
  cases bodies' with
  | nil => exact hne rfl
  | cons b _ => exact hrest b (hfits' b List.mem_cons_self) (List.prefix_append _ _)

/-- behind the frames `bodies.take n` there is no whole frame: a stream of the first frames that is no longer has at most
`n` of them -/
theorem length_le_of_frames_prefix {n k : ℕ} {rest : List UInt8} (hfits : ∀ b ∈ bodies, Fits b)
    (hrest : Incomplete rest) (hk : k ≤ bodies.length)
    (h : frames (bodies.take k) <+: frames (bodies.take n) ++ rest) : k ≤ n := by
  by_contra hlt
  have hn : n < bodies.length := by omega
  have hnext : frames (bodies.take n ++ [bodies[n]]) <+: frames (bodies.take k) := by
    rw [List.take_append_getElem hn]
    exact (List.take_prefix_take_left (Nat.lt_of_not_le hlt)).flatMap frame
  rw [frames_append] at hnext
  have hfront := (List.prefix_append_right_inj _).1 (hnext.trans h)
  rw [frames_cons, frames_nil, List.append_nil] at hfront
  exact hrest _ (hfits _ (List.getElem_mem hn)) hfront

end Cut

end RustProof
