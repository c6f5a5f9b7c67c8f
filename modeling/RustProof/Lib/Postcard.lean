/-
The postcard wire format: integers, lengths and enum tags as LEB128 varints, one tag byte for an `Option`, a length in
front of a sequence, arrays raw, trailing input left to the caller.

A decoder takes the bytes it has and returns a value with the bytes it leaves. Two rules carry the results about formats
built from these pieces:
- `Decodes d enc a`: in front of `enc`, whatever follows, `d` returns `a` and stops behind it; composed by `Decodes.bind`;
- `Ensures d P`: whatever `d` accepts satisfies `P`; composed by `Ensures.bind`.
-/
import RustProof.Lib.Bytes

namespace RustProof

abbrev Decoder (α : Type) := StateT (List UInt8) Option α

variable {α β : Type}

/-! ## The two rules -/

def Decodes (d : Decoder α) (enc : List UInt8) (a : α) : Prop := ∀ t, d (enc ++ t) = some (a, t)

def Ensures (d : Decoder α) (P : α → Prop) : Prop := ∀ bytes a t, d bytes = some (a, t) → P a

theorem Decodes.pure (a : α) : Decodes (Pure.pure a) [] a := fun _ => rfl

theorem Decodes.bind {d : Decoder α} {f : α → Decoder β} {e e' : List UInt8} {a : α} {b : β} (h : Decodes d e a)
    (h' : Decodes (f a) e' b) : Decodes (d >>= f) (e ++ e') b := by
  intro t
  change (d (e ++ e' ++ t)).bind (fun p => f p.1 p.2) = _
  rw [List.append_assoc, h]
  exact h' t

/-- the last piece of a value -/
theorem Decodes.map {d : Decoder α} {f : α → β} {e : List UInt8} {a : α} (h : Decodes d e a) :
    Decodes (d >>= fun x => Pure.pure (f x)) e (f a) := by
  have hlast : Decodes (d >>= fun x => Pure.pure (f x)) (e ++ []) (f a) := h.bind (Decodes.pure (f a))
  rwa [List.append_nil] at hlast

theorem Ensures.pure {P : α → Prop} {a : α} (h : P a) : Ensures (Pure.pure a : Decoder α) P := by
  intro bytes b t hb
  obtain ⟨rfl, -⟩ := Prod.mk.inj (Option.some.inj hb)
  exact h

theorem Ensures.bind {d : Decoder α} {f : α → Decoder β} {P : α → Prop} {Q : β → Prop} (h : Ensures d P)
    (h' : ∀ a, P a → Ensures (f a) Q) : Ensures (d >>= f) Q := by
  intro bytes b t hb
  change (d bytes).bind (fun p => f p.1 p.2) = _ at hb
  obtain ⟨⟨a, rest⟩, ha, hb⟩ := Option.bind_eq_some_iff.1 hb
  exact h' a (h bytes a rest ha) rest b t hb

theorem Ensures.true (d : Decoder α) : Ensures d fun _ => True := fun _ _ _ _ => trivial

theorem Ensures.fail {P : α → Prop} : Ensures (fun _ => none : Decoder α) P := fun _ _ _ h => nomatch h

/-! ## Varints -/

/-- the encoder's loop over at most `max` bytes, seven bits a byte -/
def varint : (max : ℕ) → ℕ → List UInt8
  | 0, _ => []
  | max + 1, n => if n < 128 then [UInt8.ofNat n] else UInt8.ofNat (n % 128 + 128) :: varint max (n / 128)

/-- the decoder's loop: `left` bytes may still come, the very last one at most `lastMax` -/
def takeVarintLoop (lastMax : ℕ) : (left shift out : ℕ) → Decoder ℕ
  | 0, _, _ => fun _ => none
  | left + 1, shift, out => fun bytes =>
    match bytes with
    | [] => none
    | b :: rest =>
      let out' := out + b.toNat % 128 * 2 ^ shift
      if b.toNat < 128 then if left = 0 ∧ lastMax < b.toNat then none else some (out', rest)
      else takeVarintLoop lastMax left (shift + 7) out' rest

/-- one more byte than `left` holds every number below `128 ^ left * (lastMax + 1)` -/
theorem takeVarintLoop_varint (lastMax : ℕ) (hl : lastMax < 128) (left n shift out : ℕ)
    (hn : n < 128 ^ left * (lastMax + 1)) :
    Decodes (takeVarintLoop lastMax (left + 1) shift out) (varint (left + 1) n) (out + n * 2 ^ shift) := by
  induction left generalizing n shift out with
  | zero =>
    intro t
    have hn' : n < lastMax + 1 := by simpa using hn
    have hb : (UInt8.ofNat n).toNat = n := by rw [UInt8.toNat_ofNat', Nat.mod_eq_of_lt (by omega)]
    rw [varint, if_pos (by omega), List.singleton_append, takeVarintLoop]
    simp only [hb]
    rw [if_pos (by omega), if_neg (by omega), Nat.mod_eq_of_lt (by omega)]
  | succ left ih =>
    intro t
    rw [varint]
    split_ifs with hsmall
    · have hb : (UInt8.ofNat n).toNat = n := by rw [UInt8.toNat_ofNat', Nat.mod_eq_of_lt (by omega)]
      rw [List.singleton_append, takeVarintLoop]
      simp only [hb]
      rw [if_pos (by omega), if_neg (by omega), Nat.mod_eq_of_lt (by omega)]
    · have hb : (UInt8.ofNat (n % 128 + 128)).toNat = n % 128 + 128 := by
        rw [UInt8.toNat_ofNat', Nat.mod_eq_of_lt (by omega)]
      have hrest : n / 128 < 128 ^ left * (lastMax + 1) := by
        rw [Nat.div_lt_iff_lt_mul (by norm_num)]
        calc n < 128 ^ (left + 1) * (lastMax + 1) := hn
          _ = 128 ^ left * (lastMax + 1) * 128 := by ring
      rw [List.cons_append, takeVarintLoop]
      simp only [hb]
      rw [if_neg (by omega), ih _ _ _ hrest t]
      have hsum : n % 128 * 2 ^ shift + n / 128 * 2 ^ (shift + 7) = n * 2 ^ shift := by
        calc n % 128 * 2 ^ shift + n / 128 * 2 ^ (shift + 7) = (n % 128 + 128 * (n / 128)) * 2 ^ shift := by ring
          _ = n * 2 ^ shift := by rw [Nat.mod_add_div]
      rw [Nat.add_mod_right, Nat.mod_mod, Nat.add_assoc, hsum]

theorem takeVarintLoop_lt (lastMax left shift out : ℕ) (ho : out < 2 ^ shift) :
    Ensures (takeVarintLoop lastMax (left + 1) shift out) fun n => n < 2 ^ shift * (128 ^ left * (lastMax + 1)) := by
  induction left generalizing shift out with
  | zero =>
    intro bytes n t h
    cases bytes with
    | nil => cases h
    | cons b rest =>
      rw [takeVarintLoop] at h
      simp only at h
      split_ifs at h with h1 h2
      · obtain ⟨rfl, -⟩ := Prod.mk.inj (Option.some.inj h)
        have hb : b.toNat ≤ lastMax := by simpa using h2
        rw [Nat.mod_eq_of_lt h1]
        calc out + b.toNat * 2 ^ shift < 2 ^ shift + b.toNat * 2 ^ shift := by omega
          _ = 2 ^ shift * (b.toNat + 1) := by ring
          _ ≤ 2 ^ shift * (128 ^ 0 * (lastMax + 1)) := by gcongr; omega
      · cases h
  | succ left ih =>
    intro bytes n t h
    cases bytes with
    | nil => cases h
    | cons b rest =>
      have hout : out + b.toNat % 128 * 2 ^ shift < 2 ^ (shift + 7) := by
        have hb : b.toNat % 128 + 1 ≤ 128 := Nat.mod_lt _ (by norm_num)
        calc out + b.toNat % 128 * 2 ^ shift < 2 ^ shift + b.toNat % 128 * 2 ^ shift := by omega
          _ = 2 ^ shift * (b.toNat % 128 + 1) := by ring
          _ ≤ 2 ^ shift * 128 := by gcongr
          _ = 2 ^ (shift + 7) := by ring
      have hstep : 2 ^ (shift + 7) * (128 ^ left * (lastMax + 1)) = 2 ^ shift * (128 ^ (left + 1) * (lastMax + 1)) := by
        ring
      rw [takeVarintLoop] at h
      simp only at h
      split_ifs at h with h1 h2
      · obtain ⟨rfl, -⟩ := Prod.mk.inj (Option.some.inj h)
        refine hout.trans_le ?_
        rw [← hstep]
        exact Nat.le_mul_of_pos_right _ (by positivity)
      · have := ih (shift + 7) _ hout _ _ _ h
        rwa [hstep] at this

/-! ## Pieces -/

/-- `u64` -/
def putU64 (x : UInt64) : List UInt8 := varint 10 x.toNat

/-- the length of a sequence, a 64-bit `usize` -/
def putLen (n : ℕ) : List UInt8 := varint 10 n

/-- the index of an enum's variant, a `u32` -/
def putTag (n : ℕ) : List UInt8 := varint 5 n

def putBool (b : Bool) : List UInt8 := [if b then 1 else 0]

def putOption (put : α → List UInt8) : Option α → List UInt8
  | none => [0]
  | some a => 1 :: put a

def putVec (put : α → List UInt8) (l : List α) : List UInt8 := putLen l.length ++ l.flatMap put

def takeLen : Decoder ℕ := takeVarintLoop 1 10 0 0

def takeTag : Decoder ℕ := takeVarintLoop 15 5 0 0

def takeU64 : Decoder UInt64 := do
  let n ← takeLen
  pure (UInt64.ofNat n)

def takeByte : Decoder UInt8 := fun bytes =>
  match bytes with
  | [] => none
  | b :: rest => some (b, rest)

def takeBool : Decoder Bool := do
  match (← takeByte).toNat with
  | 0 => pure false
  | 1 => pure true
  | _ => fun _ => none

def takeOption (take : Decoder α) : Decoder (Option α) := do
  match (← takeByte).toNat with
  | 0 => pure none
  | 1 => do
    let a ← take
    pure (some a)
  | _ => fun _ => none

/-- `n` raw bytes -/
def takeArray (n : ℕ) : Decoder (U8Array n) := fun bytes => (U8Array.ofList? n (bytes.take n)).map (·, bytes.drop n)

def takeMany (take : Decoder α) : ℕ → Decoder (List α)
  | 0 => pure []
  | n + 1 => do
    let a ← take
    let l ← takeMany take n
    pure (a :: l)

def takeVec (take : Decoder α) : Decoder (List α) := do
  let n ← takeLen
  takeMany take n

/-- a decoding step that may refuse what it read -/
def accept : Option α → Decoder α
  | some a => pure a
  | none => fun _ => none

/-! ## What is written is read back -/

theorem decodes_accept {o : Option α} {a : α} (h : o = some a) : Decodes (accept o) [] a := by
  subst h
  exact Decodes.pure a

theorem decodes_byte (b : UInt8) : Decodes takeByte [b] b := fun _ => rfl

theorem decodes_len {n : ℕ} (h : n < 2 ^ 64) : Decodes takeLen (putLen n) n := by
  have := takeVarintLoop_varint 1 (by norm_num) 9 n 0 0 (by omega)
  simpa [takeLen, putLen] using this

theorem decodes_tag {n : ℕ} (h : n < 2 ^ 32) : Decodes takeTag (putTag n) n := by
  have := takeVarintLoop_varint 15 (by norm_num) 4 n 0 0 (by omega)
  simpa [takeTag, putTag] using this

theorem decodes_u64 (x : UInt64) : Decodes takeU64 (putU64 x) x := by
  have := (decodes_len x.toNat_lt).map (f := UInt64.ofNat)
  rwa [UInt64.ofNat_toNat] at this

theorem decodes_bool (b : Bool) : Decodes takeBool (putBool b) b := by
  intro t
  cases b <;> rfl

theorem decodes_none (take : Decoder α) (put : α → List UInt8) : Decodes (takeOption take) (putOption put none) none :=
  fun _ => rfl

theorem decodes_some {take : Decoder α} {put : α → List UInt8} {a : α} (h : Decodes take (put a) a) :
    Decodes (takeOption take) (putOption put (some a)) (some a) := by
  intro t
  exact h.map (f := some) t

theorem decodes_option {take : Decoder α} {put : α → List UInt8} (h : ∀ a, Decodes take (put a) a) (o : Option α) :
    Decodes (takeOption take) (putOption put o) o := by
  cases o with
  | none => exact decodes_none take put
  | some a => exact decodes_some (h a)

theorem decodes_array {n : ℕ} (a : U8Array n) : Decodes (takeArray n) a.bytes a := by
  intro t
  have htake : (a.bytes ++ t).take n = a.bytes := by
    rw [List.take_append_of_le_length (by simp [a.size_eq]), List.take_of_length_le (by simp [a.size_eq])]
  have hdrop : (a.bytes ++ t).drop n = t := by
    rw [List.drop_append_of_le_length (by simp [a.size_eq]), List.drop_of_length_le (by simp [a.size_eq]),
      List.nil_append]
  simp only [takeArray, htake, hdrop, U8Array.ofList?_bytes, Option.map_some]

theorem decodes_many {take : Decoder α} {put : α → List UInt8} {l : List α} (h : ∀ a ∈ l, Decodes take (put a) a) :
    Decodes (takeMany take l.length) (l.flatMap put) l := by
  induction l with
  | nil => exact Decodes.pure []
  | cons a l ih =>
    have htail := (ih fun x hx => h x (List.mem_cons_of_mem _ hx)).map (f := fun l => a :: l)
    exact (h a List.mem_cons_self).bind htail

theorem decodes_vec {take : Decoder α} {put : α → List UInt8} {l : List α} (hlen : l.length < 2 ^ 64)
    (h : ∀ a ∈ l, Decodes take (put a) a) : Decodes (takeVec take) (putVec put l) l :=
  (decodes_len hlen).bind (decodes_many h)

/-! ## Lengths -/

theorem length_putU64_pos (x : UInt64) : 0 < (putU64 x).length := by
  unfold putU64 varint
  split_ifs <;> simp

theorem length_le_flatMap {f : α → List UInt8} {l : List α} {a : α} (h : a ∈ l) :
    (f a).length ≤ (l.flatMap f).length := by
  induction l with
  | nil => cases h
  | cons x l ih =>
    rw [List.flatMap_cons, List.length_append]
    rcases List.mem_cons.1 h with rfl | h
    · exact Nat.le_add_right _ _
    · exact (ih h).trans (Nat.le_add_left _ _)

/-! ## What is read is in range -/

theorem ensures_len : Ensures takeLen fun n => n < 2 ^ 64 := by
  have := takeVarintLoop_lt 1 9 0 0 (by norm_num)
  simpa [takeLen] using this

theorem ensures_many {take : Decoder α} {P : α → Prop} (h : Ensures take P) (n : ℕ) :
    Ensures (takeMany take n) fun l => l.length = n ∧ ∀ a ∈ l, P a := by
  induction n with
  | zero => exact Ensures.pure ⟨rfl, by simp⟩
  | succ n ih =>
    refine h.bind fun a ha => ih.bind fun l hl => Ensures.pure ⟨by simp [hl.1], ?_⟩
    intro x hx
    rcases List.mem_cons.1 hx with rfl | hx
    · exact ha
    · exact hl.2 x hx

theorem ensures_vec {take : Decoder α} {P : α → Prop} (h : Ensures take P) :
    Ensures (takeVec take) fun l => l.length < 2 ^ 64 ∧ ∀ a ∈ l, P a := by
  refine ensures_len.bind fun n hn => ?_
  intro bytes l t hl
  obtain ⟨h1, h2⟩ := ensures_many h n bytes l t hl
  exact ⟨h1 ▸ hn, h2⟩

end RustProof
