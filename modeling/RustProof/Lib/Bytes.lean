/-
Byte strings and machine words: fixed-size byte arrays with the lexicographic order Rust gives `[u8; N]`, big-endian
words, and a cursor that reads them back from a longer buffer.

Results used by the codecs built on it:
- `u64OfBe_u64ToBe`, `u16OfBe_u16ToBe`: a word survives its big-endian form;
- `u64ToBe_append_inj`, `U8Array.append_inj`: fixed-width fields at the front of two equal buffers are equal, and so is
  what follows them (the step rule of every unique-decodability argument);
- `reads_u64`, `reads_array`: a cursor standing in front of a field reads it and stops behind it (`Reads`);
- `parses_u64`, `parses_array`: what a cursor read was written there (`Parses`), and so for two fields in sequence
  (`Parses.bind`);
- `truncated_u64`, `truncated_array`: a field cut short is an error (`Truncated`), and so is a sequence of two fields cut
  short anywhere (`Truncated.bind`).
-/
import Mathlib.Data.List.Lex
import Mathlib.Tactic

namespace RustProof

instance instLinearOrderUInt8 : LinearOrder UInt8 where
  le_refl := UInt8.le_refl
  le_trans _ _ _ := UInt8.le_trans
  le_antisymm _ _ := UInt8.le_antisymm
  le_total := UInt8.le_total
  lt_iff_le_not_ge a b := by rw [UInt8.not_le]; exact ⟨fun h => ⟨UInt8.le_of_lt h, h⟩, fun h => h.2⟩
  toDecidableLE := inferInstance
  toDecidableLT := inferInstance
  toDecidableEq := inferInstance

instance instLinearOrderUInt64 : LinearOrder UInt64 where
  le_refl := UInt64.le_refl
  le_trans _ _ _ := UInt64.le_trans
  le_antisymm _ _ := UInt64.le_antisymm
  le_total := UInt64.le_total
  lt_iff_le_not_ge a b := by rw [UInt64.not_le]; exact ⟨fun h => ⟨UInt64.le_of_lt h, h⟩, fun h => h.2⟩
  toDecidableLE := inferInstance
  toDecidableLT := inferInstance
  toDecidableEq := inferInstance

/-! ## Fixed-size arrays -/

/-- `[u8; n]` -/
structure U8Array (n : ℕ) where
  bytes : List UInt8
  size_eq : bytes.length = n

namespace U8Array

variable {n : ℕ}

@[ext] theorem ext_bytes {a b : U8Array n} (h : a.bytes = b.bytes) : a = b := by
  cases a; cases b; cases h; rfl

theorem bytes_injective : Function.Injective (bytes : U8Array n → List UInt8) := fun _ _ h => ext_bytes h

/-- arrays compare lexicographically -/
instance : LinearOrder (U8Array n) := LinearOrder.lift' bytes bytes_injective

/-- `[0u8; n]` -/
def zero (n : ℕ) : U8Array n := ⟨List.replicate n 0, List.length_replicate⟩

/-- the array made of exactly these bytes, if there are `n` of them -/
def ofList? (n : ℕ) (l : List UInt8) : Option (U8Array n) := if h : l.length = n then some ⟨l, h⟩ else none

@[simp] theorem ofList?_bytes (a : U8Array n) : ofList? n a.bytes = some a := by
  simp [ofList?, a.size_eq]

theorem eq_of_ofList? {l : List UInt8} {a : U8Array n} (h : ofList? n l = some a) : l = a.bytes := by
  unfold ofList? at h
  split_ifs at h
  cases h
  rfl

theorem append_inj {a b : U8Array n} {x y : List UInt8} (h : a.bytes ++ x = b.bytes ++ y) : a = b ∧ x = y := by
  obtain ⟨h1, h2⟩ := List.append_inj h (a.size_eq.trans b.size_eq.symm)
  exact ⟨ext_bytes h1, h2⟩

end U8Array

/-! ## Big-endian words -/

/-- `u64::to_be_bytes` -/
def u64ToBe (x : UInt64) : List UInt8 := [7, 6, 5, 4, 3, 2, 1, 0].map fun i => UInt8.ofNat (x.toNat / 256 ^ i)

/-- `u64::from_be_bytes` -/
def u64OfBe (l : List UInt8) : UInt64 := UInt64.ofNat (l.foldl (fun acc b => acc * 256 + b.toNat) 0)

@[simp] theorem length_u64ToBe (x : UInt64) : (u64ToBe x).length = 8 := by simp [u64ToBe]

theorem u64OfBe_u64ToBe (x : UInt64) : u64OfBe (u64ToBe x) = x := by
  apply UInt64.toNat_inj.1
  have hx := x.toNat_lt
  simp only [u64OfBe, u64ToBe, List.map_cons, List.map_nil, List.foldl_cons, List.foldl_nil, UInt8.toNat_ofNat',
    UInt64.toNat_ofNat']
  norm_num
  omega

/-- eight bytes are the big-endian form of the word they denote -/
theorem u64ToBe_u64OfBe {l : List UInt8} (h : l.length = 8) : u64ToBe (u64OfBe l) = l := by
  match l, h with
  | [a, b, c, d, e, f, g, i], _ =>
    have ha := a.toNat_lt
    have hb := b.toNat_lt
    have hc := c.toNat_lt
    have hd := d.toNat_lt
    have he := e.toNat_lt
    have hf := f.toNat_lt
    have hg := g.toNat_lt
    have hi := i.toNat_lt
    simp only [u64OfBe, u64ToBe, List.foldl_cons, List.foldl_nil, List.map_cons, List.map_nil, UInt64.toNat_ofNat']
    norm_num
    simp only [← UInt8.toNat_inj, UInt8.toNat_ofNat']
    refine ⟨?_, ?_, ?_, ?_, ?_, ?_, ?_, ?_⟩ <;> omega

theorem u64ToBe_append_inj {a b : UInt64} {x y : List UInt8} (h : u64ToBe a ++ x = u64ToBe b ++ y) :
    a = b ∧ x = y := by
  obtain ⟨h1, h2⟩ := List.append_inj h (by simp)
  exact ⟨by rw [← u64OfBe_u64ToBe a, h1, u64OfBe_u64ToBe], h2⟩

/-- `u16::to_be_bytes` -/
def u16ToBe (x : UInt16) : List UInt8 := [1, 0].map fun i => UInt8.ofNat (x.toNat / 256 ^ i)

/-- `u16::from_be_bytes` -/
def u16OfBe (l : List UInt8) : UInt16 := UInt16.ofNat (l.foldl (fun acc b => acc * 256 + b.toNat) 0)

@[simp] theorem length_u16ToBe (x : UInt16) : (u16ToBe x).length = 2 := by simp [u16ToBe]

theorem u16OfBe_u16ToBe (x : UInt16) : u16OfBe (u16ToBe x) = x := by
  apply UInt16.toNat_inj.1
  have hx := x.toNat_lt
  simp only [u16OfBe, u16ToBe, List.map_cons, List.map_nil, List.foldl_cons, List.foldl_nil, UInt8.toNat_ofNat',
    UInt16.toNat_ofNat']
  norm_num
  omega

/-! ## Cursor reads -/

/-- read a big-endian word at cursor `i`; `eof` is the error of a short buffer -/
def readU64 (eof : String) (bytes : List UInt8) (i : ℕ) : Except String (UInt64 × ℕ) :=
  if i + 8 > bytes.length then .error eof else .ok (u64OfBe ((bytes.drop i).take 8), i + 8)

/-- read `n` raw bytes at cursor `i` -/
def readArray (n : ℕ) (eof : String) (bytes : List UInt8) (i : ℕ) : Except String (U8Array n × ℕ) :=
  if h : i + n > bytes.length then .error eof
  else .ok (⟨(bytes.drop i).take n, by simp; omega⟩, i + n)

/-- a reader standing in front of `enc` returns `a` and stops right behind it -/
def Reads {α : Type} (read : List UInt8 → ℕ → Except String (α × ℕ)) (enc : List UInt8) (a : α) : Prop :=
  ∀ pre post, read (pre ++ (enc ++ post)) pre.length = .ok (a, (pre ++ enc).length)

/-- the same buffer, seen from behind `enc` -/
theorem Reads.next {α : Type} {read : List UInt8 → ℕ → Except String (α × ℕ)} {enc : List UInt8} {a : α}
    (h : Reads read enc a) (pre enc' post : List UInt8) :
    read (pre ++ ((enc ++ enc') ++ post)) pre.length = .ok (a, (pre ++ enc).length) ∧
      pre ++ ((enc ++ enc') ++ post) = (pre ++ enc) ++ (enc' ++ post) := by
  rw [List.append_assoc enc]
  exact ⟨h pre (enc' ++ post), by simp⟩

theorem reads_u64 (eof : String) (x : UInt64) : Reads (readU64 eof) (u64ToBe x) x := by
  intro pre post
  have hlen : ¬ pre.length + 8 > (pre ++ (u64ToBe x ++ post)).length := by simp
  rw [readU64, if_neg hlen, List.drop_left, List.take_append_of_le_length (by simp),
    List.take_of_length_le (by simp), u64OfBe_u64ToBe]
  simp

theorem reads_array {n : ℕ} (eof : String) (a : U8Array n) : Reads (readArray n eof) a.bytes a := by
  intro pre post
  have hlen : ¬ pre.length + n > (pre ++ (a.bytes ++ post)).length := by simp [a.size_eq]
  have hbytes : ((pre ++ (a.bytes ++ post)).drop pre.length).take n = a.bytes := by
    rw [List.drop_left, List.take_append_of_le_length (by simp [a.size_eq]), List.take_of_length_le (by simp [a.size_eq])]
  rw [readArray, dif_neg hlen]
  exact congrArg Except.ok (Prod.ext (U8Array.ext_bytes hbytes) (by simp [a.size_eq]))

/-! ## What was read stands there -/

/-- a reader returns exactly what is written at its cursor, and stops behind it -/
def Parses {α : Type} (read : List UInt8 → ℕ → Except String (α × ℕ)) (written : α → List UInt8 → Prop) : Prop :=
  ∀ pre s a j, read (pre ++ s) pre.length = .ok (a, j) ↔
    ∃ enc t, written a enc ∧ s = enc ++ t ∧ j = (pre ++ enc).length

section Parses

variable {α β : Type} {read : List UInt8 → ℕ → Except String (α × ℕ)} {written : α → List UInt8 → Prop}

theorem Parses.congr {written' : α → List UInt8 → Prop} (h : Parses read written)
    (heq : ∀ a enc, written a enc ↔ written' a enc) : Parses read written' := by
  intro pre s a j
  rw [h]
  simp only [heq]

/-- the cursor stays in the buffer -/
theorem Parses.cursor_le (h : Parses read written) {bytes : List UInt8} {i j : ℕ} {a : α} (hi : i ≤ bytes.length)
    (hok : read bytes i = .ok (a, j)) : j ≤ bytes.length := by
  have hpre : (bytes.take i).length = i := by rw [List.length_take, Nat.min_eq_left hi]
  rw [← List.take_append_drop i bytes] at hok
  nth_rewrite 3 [← hpre] at hok
  obtain ⟨enc, t, -, hs, rfl⟩ := (h _ _ _ _).1 hok
  calc (bytes.take i ++ enc).length ≤ (bytes.take i ++ (enc ++ t)).length := by simp
    _ = bytes.length := by rw [← hs, List.take_append_drop]

theorem parses_pure (a : α) : Parses (fun _ i => .ok (a, i)) fun b enc => b = a ∧ enc = [] := by
  intro pre s b j
  simp only [Except.ok.injEq, Prod.mk.injEq]
  constructor
  · rintro ⟨rfl, rfl⟩
    exact ⟨[], s, ⟨rfl, rfl⟩, rfl, by rw [List.append_nil]⟩
  · rintro ⟨enc, t, ⟨rfl, rfl⟩, -, rfl⟩
    exact ⟨rfl, by rw [List.append_nil]⟩

theorem Parses.bind {next : α → List UInt8 → ℕ → Except String (β × ℕ)} {written' : α → β → List UInt8 → Prop}
    (h : Parses read written) (hnext : ∀ a, Parses (next a) (written' a)) :
    Parses (fun bytes i => read bytes i >>= fun r => next r.1 bytes r.2)
      fun b enc => ∃ a enc₁ enc₂, written a enc₁ ∧ written' a b enc₂ ∧ enc = enc₁ ++ enc₂ := by
  intro pre s b j
  constructor
  · intro hok
    cases hr : read (pre ++ s) pre.length with
    | error e =>
      simp only [hr] at hok
      cases hok
    | ok r =>
      obtain ⟨a, i⟩ := r
      simp only [hr] at hok
      obtain ⟨enc₁, t, hw, rfl, rfl⟩ := (h pre s a i).1 hr
      rw [← List.append_assoc] at hok
      obtain ⟨enc₂, t', hw', rfl, rfl⟩ := (hnext a (pre ++ enc₁) t b j).1 hok
      exact ⟨enc₁ ++ enc₂, t', ⟨a, enc₁, enc₂, hw, hw', rfl⟩, by rw [List.append_assoc], by rw [List.append_assoc]⟩
  · rintro ⟨_, t, ⟨a, enc₁, enc₂, hw, hw', rfl⟩, rfl, rfl⟩
    have hfst := (h pre (enc₁ ++ enc₂ ++ t) a _).2 ⟨enc₁, enc₂ ++ t, hw, by rw [List.append_assoc], rfl⟩
    have hsnd := (hnext a (pre ++ enc₁) (enc₂ ++ t) b _).2 ⟨enc₂, t, hw', rfl, rfl⟩
    simp only [hfst]
    rw [List.append_assoc, List.append_assoc] at hsnd
    rw [List.append_assoc]
    exact hsnd

theorem parses_u64 (eof : String) : Parses (readU64 eof) fun x enc => enc = u64ToBe x := by
  intro pre s x j
  constructor
  · intro hok
    unfold readU64 at hok
    split_ifs at hok with hlen
    cases hok
    rw [List.length_append] at hlen
    have hword : ((pre ++ s).drop pre.length).take 8 = s.take 8 := by rw [List.drop_left]
    have hsize : (s.take 8).length = 8 := by
      rw [List.length_take]
      omega
    refine ⟨s.take 8, s.drop 8, ?_, (List.take_append_drop 8 s).symm, by rw [List.length_append, hsize]⟩
    simp only [hword, u64ToBe_u64OfBe hsize]
  · rintro ⟨enc, t, rfl, rfl, rfl⟩
    exact reads_u64 eof x pre t

theorem parses_array (n : ℕ) (eof : String) : Parses (readArray n eof) fun a enc => enc = a.bytes := by
  intro pre s a j
  constructor
  · intro hok
    unfold readArray at hok
    split_ifs at hok with hlen
    cases hok
    rw [List.length_append] at hlen
    have hword : ((pre ++ s).drop pre.length).take n = s.take n := by rw [List.drop_left]
    have hsize : (s.take n).length = n := by
      rw [List.length_take]
      omega
    exact ⟨s.take n, s.drop n, hword.symm, (List.take_append_drop n s).symm, by rw [List.length_append, hsize]⟩
  · rintro ⟨enc, t, rfl, rfl, rfl⟩
    exact reads_array eof a pre t

end Parses

/-! ## Truncated buffers -/

/-- `q` is the front of `enc`, with something missing -/
def CutOf (q enc : List UInt8) : Prop := ∃ missing, missing ≠ [] ∧ q ++ missing = enc

theorem not_cutOf_nil (q : List UInt8) : ¬ CutOf q [] := by
  rintro ⟨missing, hne, h⟩
  exact hne (List.append_eq_nil_iff.1 h).2

theorem CutOf.length_lt {q enc : List UInt8} (h : CutOf q enc) : q.length < enc.length := by
  obtain ⟨missing, hne, rfl⟩ := h
  have := List.length_pos_iff.2 hne
  rw [List.length_append]
  omega

/-- the cut falls into the first field, or the first field is whole and the cut falls behind it -/
theorem CutOf.append {q enc enc' : List UInt8} (h : CutOf q (enc ++ enc')) :
    CutOf q enc ∨ ∃ q', q = enc ++ q' ∧ CutOf q' enc' := by
  obtain ⟨missing, hne, heq⟩ := h
  rcases List.append_eq_append_iff.1 heq with ⟨as, henc, hmissing⟩ | ⟨bs, hq, henc'⟩
  · by_cases has : as = []
    · subst has
      refine .inr ⟨[], by rw [henc, List.append_nil, List.append_nil], missing, hne, ?_⟩
      rw [hmissing, List.nil_append, List.nil_append]
    · exact .inl ⟨as, has, henc.symm⟩
  · exact .inr ⟨bs, hq, missing, hne, henc'.symm⟩

/-- a reader standing in front of a cut of `enc` reports an error -/
def Truncated {α : Type} (read : List UInt8 → ℕ → Except String α) (enc : List UInt8) : Prop :=
  ∀ pre q, CutOf q enc → ∃ e, read (pre ++ q) pre.length = .error e

theorem truncated_nil {α : Type} (read : List UInt8 → ℕ → Except String α) : Truncated read [] :=
  fun _ q hq => absurd hq (not_cutOf_nil q)

theorem Truncated.bind {α β : Type} {read : List UInt8 → ℕ → Except String (α × ℕ)} {a : α}
    {enc enc' : List UInt8} (next : α → List UInt8 → ℕ → Except String β) (hread : Reads read enc a)
    (hcut : Truncated read enc) (hnext : Truncated (next a) enc') :
    Truncated (fun bytes i => read bytes i >>= fun r => next r.1 bytes r.2) (enc ++ enc') := by
  intro pre q hq
  rcases hq.append with hfst | ⟨q', rfl, hsnd⟩
  · obtain ⟨e, he⟩ := hcut pre q hfst
    exact ⟨e, by simp only [he]; rfl⟩
  · obtain ⟨e, he⟩ := hnext (pre ++ enc) q' hsnd
    refine ⟨e, ?_⟩
    simp only [hread pre q']
    rw [← List.append_assoc]
    exact he

theorem truncated_u64 (eof : String) (x : UInt64) : Truncated (readU64 eof) (u64ToBe x) := by
  intro pre q hq
  have hlen : pre.length + 8 > (pre ++ q).length := by
    have := hq.length_lt
    rw [length_u64ToBe] at this
    rw [List.length_append]
    omega
  exact ⟨eof, by rw [readU64, if_pos hlen]⟩

theorem truncated_array {n : ℕ} (eof : String) (a : U8Array n) : Truncated (readArray n eof) a.bytes := by
  intro pre q hq
  have hlen : pre.length + n > (pre ++ q).length := by
    have := hq.length_lt
    rw [a.size_eq] at this
    rw [List.length_append]
    omega
  exact ⟨eof, by rw [readArray, dif_pos hlen]⟩

end RustProof
