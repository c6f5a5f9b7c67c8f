/-
What `FromBytes for State` does with bytes nobody vouches for.

The reader is modelled once more, with what can panic in it: cursor additions, slices, `Vec::with_capacity`; and with the
reservations it makes (`usize` has 64 bits). The first two never panic, since the cursor stays in the buffer
(`Reading.fromBytes_eq`). The third is made with a count that was read from the bytes, before the requests behind it were
looked at.

`Announces` says in terms of the bytes where such a count stands. `decoding_never_panics_iff`: the reader returns and
reserves no more than the rest of the input could fill exactly if no count of requests goes beyond the input.
-/
import RustProof.Core.StateCodec

namespace RustProof

/-! ## Readers that may panic -/

inductive Panic where
  /-- attempt to add with overflow -/
  | addOverflow
  /-- range end index out of range for slice -/
  | sliceIndex
  /-- source slice length does not match destination slice length -/
  | copyLength
  | capacityOverflow
deriving DecidableEq, Repr

/-- a call of `Vec::with_capacity`, and where the cursor stands -/
structure Reservation where
  capacity : ℕ
  cursor : ℕ
deriving DecidableEq, Repr

/-- the reservations made, and a panic or the result -/
structure Reading (α : Type) where
  reservations : List Reservation
  outcome : Except Panic (Except String α)

namespace Reading

variable {α β : Type}

instance : Monad Reading where
  pure a := ⟨[], .ok (.ok a)⟩
  bind x f :=
    match x.outcome with
    | .error p => ⟨x.reservations, .error p⟩
    | .ok (.error e) => ⟨x.reservations, .ok (.error e)⟩
    | .ok (.ok a) => ⟨x.reservations ++ (f a).reservations, (f a).outcome⟩

def panic (p : Panic) : Reading α := ⟨[], .error p⟩

/-- `return Err(message)` -/
def fail (message : String) : Reading α := ⟨[], .ok (.error message)⟩

/-- `a + b` in `usize` -/
def add (a b : ℕ) : Reading ℕ := if a + b < 2 ^ 64 then pure (a + b) else panic .addOverflow

/-- `&bytes[lo..hi]` -/
def slice (bytes : List UInt8) (lo hi : ℕ) : Reading (List UInt8) :=
  if lo ≤ hi ∧ hi ≤ bytes.length then pure ((bytes.drop lo).take (hi - lo)) else panic .sliceIndex

/-- `Vec::<UnstakeRequest>::with_capacity(capacity)` -/
def withCapacity (capacity cursor : ℕ) : Reading Unit :=
  ⟨[⟨capacity, cursor⟩], if capacity * unstakeRequestSize > isizeMax then .error .capacityOverflow else .ok (.ok ())⟩

def readU64 (bytes : List UInt8) (i : ℕ) : Reading (UInt64 × ℕ) := do
  let stop ← add i 8
  if stop > bytes.length then fail "Unexpected EOF reading u64"
  else
    let val ← slice bytes i stop
    let i ← add i 8
    pure (u64OfBe val, i)

def readKey (bytes : List UInt8) (i : ℕ) : Reading (PublicKeyBytes × ℕ) := do
  let stop ← add i publicKeySize
  if stop > bytes.length then fail "Unexpected EOF reading key"
  else
    let source ← slice bytes i stop
    match U8Array.ofList? publicKeySize source with
    | none => panic .copyLength
    | some key =>
      let i ← add i publicKeySize
      pure (key, i)

def readEntries (bytes : List UInt8) :
    ℕ → BTreeMap PublicKeyBytes UInt64 → ℕ → Reading (BTreeMap PublicKeyBytes UInt64 × ℕ)
  | 0, map, i => pure (map, i)
  | n + 1, map, i => do
    let (k, i) ← readKey bytes i
    let (v, i) ← readU64 bytes i
    readEntries bytes n (map.insert k v) i

def readU64Map (bytes : List UInt8) (i : ℕ) : Reading (BTreeMap PublicKeyBytes UInt64 × ℕ) := do
  let (len, i) ← readU64 bytes i
  readEntries bytes len.toNat .empty i

def readRequests (bytes : List UInt8) : ℕ → List UnstakeRequest → ℕ → Reading (List UnstakeRequest × ℕ)
  | 0, requests, i => pure (requests, i)
  | n + 1, requests, i => do
    let (amount, i) ← readU64 bytes i
    let (unlockSlot, i) ← readU64 bytes i
    readRequests bytes n (requests ++ [⟨amount, unlockSlot⟩]) i

def readAccounts (bytes : List UInt8) : ℕ → BTreeMap PublicKeyBytes (List UnstakeRequest) → ℕ →
    Reading (BTreeMap PublicKeyBytes (List UnstakeRequest))
  | 0, map, _ => pure map
  | n + 1, map, i => do
    let (k, i) ← readKey bytes i
    let (reqLen, i) ← readU64 bytes i
    withCapacity reqLen.toNat i
    let (requests, i) ← readRequests bytes reqLen.toNat [] i
    readAccounts bytes n (map.insert k requests) i

def fromBytes (bytes : List UInt8) : Reading State := do
  let (balances, i) ← readU64Map bytes 0
  let (nonces, i) ← readU64Map bytes i
  let (stakes, i) ← readU64Map bytes i
  let (unstakingLen, i) ← readU64 bytes i
  let unstaking ← readAccounts bytes unstakingLen.toNat .empty i
  pure ⟨balances, nonces, stakes, unstaking⟩

/-! ## Without its accounts the reader cannot panic -/

/-- a reader that neither panics nor reserves -/
def quiet (x : Except String α) : Reading α := ⟨[], .ok x⟩

@[simp] theorem pure_bind' (a : α) (f : α → Reading β) : (pure a : Reading α) >>= f = f a := by
  simp [bind, pure]

@[simp] theorem quiet_ok_bind (a : α) (f : α → Reading β) : quiet (.ok a) >>= f = f a := by
  simp [bind, quiet]

@[simp] theorem quiet_error_bind (e : String) (f : α → Reading β) : quiet (.error e) >>= f = quiet (.error e) := by
  simp [bind, quiet]

theorem add_eq {a b : ℕ} (h : a + b < 2 ^ 64) : add a b = pure (a + b) := if_pos h

theorem slice_eq {bytes : List UInt8} {lo n : ℕ} (h : lo + n ≤ bytes.length) :
    slice bytes lo (lo + n) = pure ((bytes.drop lo).take n) := by
  rw [slice, if_pos ⟨Nat.le_add_right _ _, h⟩, Nat.add_sub_cancel_left]

section Quiet

variable {bytes : List UInt8} {i : ℕ}

theorem readU64_eq (hlen : bytes.length ≤ isizeMax) (hi : i ≤ bytes.length) :
    readU64 bytes i = quiet (readWord bytes i) := by
  have hmax : isizeMax + 8 < 2 ^ 64 := by decide
  unfold readU64 readWord RustProof.readU64
  rw [add_eq (by omega), pure_bind']
  split_ifs with hstop
  · rfl
  · rw [slice_eq (by omega), pure_bind', pure_bind']
    rfl

theorem readKey_eq (hlen : bytes.length ≤ isizeMax) (hi : i ≤ bytes.length) :
    readKey bytes i = quiet (RustProof.readKey bytes i) := by
  have hmax : isizeMax + publicKeySize < 2 ^ 64 := by decide
  unfold readKey RustProof.readKey readArray
  rw [add_eq (by omega), pure_bind']
  split_ifs with hstop
  · rfl
  · have hsize : ((bytes.drop i).take publicKeySize).length = publicKeySize := by
      rw [List.length_take, List.length_drop]
      omega
    rw [slice_eq (by omega), pure_bind', U8Array.ofList?, dif_pos hsize]
    simp only [pure_bind']
    rfl

end Quiet

theorem quiet_bind {x : Except String α} {f : α → Reading β} {g : α → Except String β}
    (h : ∀ a, x = .ok a → f a = quiet (g a)) : quiet x >>= f = quiet (x >>= g) := by
  cases x with
  | error e => exact quiet_error_bind e f
  | ok a => exact (quiet_ok_bind a f).trans (h a rfl)

theorem quiet_bind_assoc {γ : Type} (x : Except String α) (f : α → Except String β) (g : β → Reading γ) :
    quiet (x >>= f) >>= g = quiet x >>= fun a => quiet (f a) >>= g := by
  cases x with
  | error e => exact (quiet_error_bind e g).trans (quiet_error_bind e _).symm
  | ok a => exact (quiet_ok_bind a fun a => quiet (f a) >>= g).symm

theorem quiet_bind_congr {x : Except String α} {f g : α → Reading β} (h : ∀ a, x = .ok a → f a = g a) :
    quiet x >>= f = quiet x >>= g := by
  cases x with
  | error e => rw [quiet_error_bind, quiet_error_bind]
  | ok a => rw [quiet_ok_bind, quiet_ok_bind, h a rfl]

end Reading

/-! ## What is written at a cursor -/

/-- the bytes of a map's entries, in any order -/
def entryBytes (l : List (PublicKeyBytes × UInt64)) : List UInt8 := l.flatMap fun e => e.1.bytes ++ u64ToBe e.2

/-- the bytes of a map, as `read_u64_map` takes them -/
def mapBytes (l : List (PublicKeyBytes × UInt64)) : List UInt8 := lenPrefix l.length ++ entryBytes l

def requestBytes (l : List UnstakeRequest) : List UInt8 := l.flatMap fun r => u64ToBe r.amount ++ u64ToBe r.unlockSlot

theorem length_requestBytes (l : List UnstakeRequest) : (requestBytes l).length = 16 * l.length := by
  induction l with
  | nil => rfl
  | cons r l ih =>
    rw [requestBytes, List.flatMap_cons, List.length_append, List.length_cons]
    change _ + (requestBytes l).length = _
    rw [ih, List.length_append, length_u64ToBe, length_u64ToBe]
    omega

theorem parses_word : Parses readWord fun x enc => enc = u64ToBe x := parses_u64 _

theorem parses_key : Parses readKey fun k enc => enc = k.bytes := parses_array _ _

theorem parses_entries (n : ℕ) (m : BTreeMap PublicKeyBytes UInt64) :
    Parses (fun bytes i => readEntries bytes n m i) fun m' enc =>
      ∃ l, l.length = n ∧ m' = l.foldl (fun m e => m.insert e.1 e.2) m ∧ enc = entryBytes l := by
  induction n generalizing m with
  | zero =>
    refine (parses_pure m).congr fun m' enc => ?_
    constructor
    · rintro ⟨rfl, rfl⟩
      exact ⟨[], rfl, rfl, rfl⟩
    · rintro ⟨l, hl, rfl, rfl⟩
      rw [List.eq_nil_of_length_eq_zero hl]
      exact ⟨rfl, rfl⟩
  | succ n ih =>
    refine (parses_key.bind fun k => parses_word.bind fun v => ih (m.insert k v)).congr fun m' enc => ?_
    constructor
    · rintro ⟨k, _, _, rfl, ⟨v, _, _, rfl, ⟨l, rfl, rfl, rfl⟩, rfl⟩, rfl⟩
      exact ⟨(k, v) :: l, rfl, rfl, by simp [entryBytes]⟩
    · rintro ⟨l, hl, rfl, rfl⟩
      obtain ⟨⟨k, v⟩, l, rfl⟩ := List.exists_cons_of_length_eq_add_one hl
      refine ⟨k, _, _, rfl, ⟨v, _, _, rfl, ⟨l, Nat.succ.inj hl, rfl, rfl⟩, rfl⟩, by simp [entryBytes]⟩

theorem parses_requests (n : ℕ) (acc : List UnstakeRequest) :
    Parses (fun bytes i => readRequests bytes n acc i) fun l' enc =>
      ∃ l, l.length = n ∧ l' = acc ++ l ∧ enc = requestBytes l := by
  induction n generalizing acc with
  | zero =>
    refine (parses_pure acc).congr fun l' enc => ?_
    constructor
    · rintro ⟨rfl, rfl⟩
      exact ⟨[], rfl, (List.append_nil _).symm, rfl⟩
    · rintro ⟨l, hl, rfl, rfl⟩
      rw [List.eq_nil_of_length_eq_zero hl]
      exact ⟨List.append_nil _, rfl⟩
  | succ n ih =>
    refine (parses_word.bind fun a => parses_word.bind fun u => ih (acc ++ [⟨a, u⟩])).congr fun l' enc => ?_
    constructor
    · rintro ⟨a, _, _, rfl, ⟨u, _, _, rfl, ⟨l, rfl, rfl, rfl⟩, rfl⟩, rfl⟩
      exact ⟨⟨a, u⟩ :: l, rfl, by simp, by simp [requestBytes]⟩
    · rintro ⟨l, hl, rfl, rfl⟩
      obtain ⟨⟨a, u⟩, l, rfl⟩ := List.exists_cons_of_length_eq_add_one hl
      exact ⟨a, _, _, rfl, ⟨u, _, _, rfl, ⟨l, Nat.succ.inj hl, by simp, rfl⟩, rfl⟩, by simp [requestBytes]⟩

theorem parses_u64Map : Parses readU64Map fun m enc =>
    ∃ l : List (PublicKeyBytes × UInt64), l.length < 2 ^ 64 ∧ m = l.foldl (fun m e => m.insert e.1 e.2) .empty ∧
      enc = mapBytes l := by
  refine (parses_word.bind fun len => parses_entries len.toNat .empty).congr fun m enc => ?_
  constructor
  · rintro ⟨len, _, _, rfl, ⟨l, hl, rfl, rfl⟩, rfl⟩
    refine ⟨l, by rw [hl]; exact len.toNat_lt, rfl, ?_⟩
    rw [mapBytes, lenPrefix, hl, UInt64.ofNat_toNat]
  · rintro ⟨l, hl, rfl, rfl⟩
    exact ⟨UInt64.ofNat l.length, _, _, rfl, ⟨l, (toNat_lenPrefix hl).symm, rfl, rfl⟩, rfl⟩

/-- the three maps and the number of accounts -/
def headerBytes (balances nonces stakes : List (PublicKeyBytes × UInt64)) (len : UInt64) : List UInt8 :=
  mapBytes balances ++ (mapBytes nonces ++ (mapBytes stakes ++ u64ToBe len))

theorem readHeader_ok_iff {bytes : List UInt8} {s : State} {len : UInt64} {j : ℕ} :
    readHeader bytes = .ok ((s, len), j) ↔ ∃ balances nonces stakes t,
      balances.length < 2 ^ 64 ∧ nonces.length < 2 ^ 64 ∧ stakes.length < 2 ^ 64 ∧
      s = ⟨balances.foldl (fun m e => m.insert e.1 e.2) .empty, nonces.foldl (fun m e => m.insert e.1 e.2) .empty,
        stakes.foldl (fun m e => m.insert e.1 e.2) .empty, .empty⟩ ∧
      bytes = headerBytes balances nonces stakes len ++ t ∧ j = (headerBytes balances nonces stakes len).length := by
  have hparse := parses_u64Map.bind fun b => parses_u64Map.bind fun nc => parses_u64Map.bind fun st =>
    parses_word.bind fun len => parses_pure (((⟨b, nc, st, .empty⟩ : State), len))
  have hread := hparse [] bytes (s, len) j
  refine Iff.trans hread ?_
  constructor
  · rintro ⟨_, t, ⟨_, _, _, ⟨b, hb, rfl, rfl⟩, ⟨_, _, _, ⟨nc, hnc, rfl, rfl⟩, ⟨_, _, _, ⟨st, hst, rfl, rfl⟩,
      ⟨_, _, _, rfl, ⟨heq, rfl⟩, rfl⟩, rfl⟩, rfl⟩, rfl⟩, rfl, rfl⟩
    cases heq
    exact ⟨b, nc, st, t, hb, hnc, hst, rfl, by simp [headerBytes], by simp [headerBytes]⟩
  · rintro ⟨b, nc, st, t, hb, hnc, hst, rfl, rfl, rfl⟩
    exact ⟨headerBytes b nc st len, t, ⟨_, _, _, ⟨b, hb, rfl, rfl⟩, ⟨_, _, _, ⟨nc, hnc, rfl, rfl⟩,
      ⟨_, _, _, ⟨st, hst, rfl, rfl⟩, ⟨len, _, [], rfl, ⟨rfl, rfl⟩, rfl⟩, rfl⟩, rfl⟩, by simp [headerBytes]⟩, rfl, rfl⟩

/-- with `n` accounts to come: after some whole accounts there is a key, the count of its requests, and the rest -/
inductive Announces : ℕ → List UInt8 → UInt64 → List UInt8 → Prop
  | here (n : ℕ) (key : PublicKeyBytes) (count : UInt64) (rest : List UInt8) :
      Announces (n + 1) (key.bytes ++ (u64ToBe count ++ rest)) count rest
  | next {n : ℕ} {s rest : List UInt8} {count : UInt64} (key : PublicKeyBytes) (requests : List UnstakeRequest)
      (announces : Announces n s count rest) :
      Announces (n + 1) (key.bytes ++ (lenPrefix requests.length ++ (requestBytes requests ++ s))) count rest

/-- no count of requests goes beyond the input: each is followed by as many requests of sixteen bytes, or more bytes -/
def RequestsFit (bytes : List UInt8) : Prop :=
  ∀ balances nonces stakes len s count rest, bytes = headerBytes balances nonces stakes len ++ s →
    Announces len.toNat s count rest → count.toNat * 16 ≤ rest.length

/-! ## Which reservations are made -/

namespace Reading

section Accounts

variable {bytes : List UInt8} {i : ℕ}

theorem readEntries_eq (hlen : bytes.length ≤ isizeMax) (n : ℕ) (m : BTreeMap PublicKeyBytes UInt64)
    (hi : i ≤ bytes.length) : readEntries bytes n m i = quiet (RustProof.readEntries bytes n m i) := by
  induction n generalizing m i with
  | zero => rfl
  | succ n ih =>
    unfold readEntries RustProof.readEntries
    rw [readKey_eq hlen hi]
    refine quiet_bind ?_
    rintro ⟨k, j⟩ hk
    have hj := parses_key.cursor_le hi hk
    simp only
    rw [readU64_eq hlen hj]
    refine quiet_bind ?_
    rintro ⟨v, j'⟩ hv
    exact ih _ (parses_word.cursor_le hj hv)

theorem readU64Map_eq (hlen : bytes.length ≤ isizeMax) (hi : i ≤ bytes.length) :
    readU64Map bytes i = quiet (RustProof.readU64Map bytes i) := by
  unfold readU64Map RustProof.readU64Map
  rw [readU64_eq hlen hi]
  refine quiet_bind ?_
  intro (len, j) hword
  exact readEntries_eq hlen _ _ (parses_word.cursor_le hi hword)

theorem readRequests_eq (hlen : bytes.length ≤ isizeMax) (n : ℕ) (acc : List UnstakeRequest) (hi : i ≤ bytes.length) :
    readRequests bytes n acc i = quiet (RustProof.readRequests bytes n acc i) := by
  induction n generalizing acc i with
  | zero => rfl
  | succ n ih =>
    unfold readRequests RustProof.readRequests
    rw [readU64_eq hlen hi]
    refine quiet_bind ?_
    rintro ⟨amount, j⟩ ha
    have hj := parses_word.cursor_le hi ha
    simp only
    rw [readU64_eq hlen hj]
    refine quiet_bind ?_
    rintro ⟨unlockSlot, j'⟩ hu
    exact ih _ (parses_word.cursor_le hj hu)

theorem fromBytes_eq (hlen : bytes.length ≤ isizeMax) : fromBytes bytes = quiet (readHeader bytes) >>= fun r =>
    readAccounts bytes r.1.2.toNat .empty r.2 >>= fun u => pure { r.1.1 with unstaking := u } := by
  unfold fromBytes readHeader
  rw [readU64Map_eq hlen (Nat.zero_le _), quiet_bind_assoc]
  refine quiet_bind_congr ?_
  intro (balances, i₁) h₁
  have h₁ := parses_u64Map.cursor_le (Nat.zero_le _) h₁
  simp only
  rw [readU64Map_eq hlen h₁, quiet_bind_assoc]
  refine quiet_bind_congr ?_
  intro (nonces, i₂) h₂
  have h₂ := parses_u64Map.cursor_le h₁ h₂
  simp only
  rw [readU64Map_eq hlen h₂, quiet_bind_assoc]
  refine quiet_bind_congr ?_
  intro (stakes, i₃) h₃
  have h₃ := parses_u64Map.cursor_le h₂ h₃
  simp only
  rw [readU64_eq hlen h₃, quiet_bind_assoc]
  refine quiet_bind_congr ?_
  intro (unstakingLen, i₄) _
  exact (quiet_ok_bind _ _).symm

theorem mem_quiet_bind {x : Except String α} {f : α → Reading β} {r : Reservation} :
    r ∈ (quiet x >>= f).reservations ↔ ∃ a, x = .ok a ∧ r ∈ (f a).reservations := by
  cases x with
  | error e =>
    rw [quiet_error_bind]
    simp [quiet]
  | ok a =>
    rw [quiet_ok_bind]
    simp

theorem mem_withCapacity_bind {capacity cursor : ℕ} {f : Unit → Reading β} {r : Reservation} :
    r ∈ (withCapacity capacity cursor >>= f).reservations ↔
      r = ⟨capacity, cursor⟩ ∨ capacity * unstakeRequestSize ≤ isizeMax ∧ r ∈ (f ()).reservations := by
  unfold withCapacity
  simp only [bind]
  by_cases hcap : capacity * unstakeRequestSize > isizeMax
  · simp [hcap, Nat.not_le.2 hcap]
  · simp [hcap, Nat.not_lt.1 hcap]

theorem withCapacity_bind_outcome {capacity cursor : ℕ} {f : Unit → Reading β} :
    (withCapacity capacity cursor >>= f).outcome =
      if capacity * unstakeRequestSize > isizeMax then .error .capacityOverflow else (f ()).outcome := by
  unfold withCapacity
  simp only [bind]
  split_ifs <;> rfl

/-- the reader of `from_bytes` returns what the model of the snapshot format says, and panics where that does -/
theorem readAccounts_outcome (hlen : bytes.length ≤ isizeMax) (n : ℕ)
    (m : BTreeMap PublicKeyBytes (List UnstakeRequest)) (hi : i ≤ bytes.length) :
    (readAccounts bytes n m i).outcome =
      (RustProof.readAccounts bytes n m i).mapError fun _ => .capacityOverflow := by
  induction n generalizing m i with
  | zero => rfl
  | succ n ih =>
    rw [readAccounts, RustProof.readAccounts, readAccount, readKey_eq hlen hi]
    cases hkey : RustProof.readKey bytes i with
    | error e => rfl
    | ok r =>
      obtain ⟨k, i₁⟩ := r
      have h₁ := parses_key.cursor_le hi hkey
      rw [quiet_ok_bind]
      simp only
      rw [readU64_eq hlen h₁]
      cases hcount : readWord bytes i₁ with
      | error e => rfl
      | ok r =>
        obtain ⟨count, i₂⟩ := r
        have h₂ := parses_word.cursor_le h₁ hcount
        rw [quiet_ok_bind]
        simp only
        rw [withCapacity_bind_outcome]
        split_ifs with hcap
        · rfl
        · rw [readRequests_eq hlen _ _ h₂]
          cases hreq : RustProof.readRequests bytes count.toNat [] i₂ with
          | error e => rfl
          | ok r =>
            obtain ⟨requests, i₃⟩ := r
            have h₃ := (parses_requests count.toNat []).cursor_le h₂ hreq
            rw [quiet_ok_bind]
            exact ih _ h₃

/-- a panic comes from a reservation that no allocator makes -/
theorem readAccounts_panics (hlen : bytes.length ≤ isizeMax) {n : ℕ}
    {m : BTreeMap PublicKeyBytes (List UnstakeRequest)} (hi : i ≤ bytes.length) {p : Panic}
    (h : (readAccounts bytes n m i).outcome = .error p) :
    ∃ r ∈ (readAccounts bytes n m i).reservations, isizeMax < r.capacity * unstakeRequestSize := by
  induction n generalizing m i with
  | zero => cases h
  | succ n ih =>
    rw [readAccounts, readKey_eq hlen hi] at h ⊢
    cases hkey : RustProof.readKey bytes i with
    | error e =>
      rw [hkey] at h
      cases h
    | ok r =>
      obtain ⟨k, i₁⟩ := r
      have h₁ := parses_key.cursor_le hi hkey
      rw [hkey, quiet_ok_bind] at h
      rw [quiet_ok_bind]
      simp only at h ⊢
      rw [readU64_eq hlen h₁] at h ⊢
      cases hcount : readWord bytes i₁ with
      | error e =>
        rw [hcount] at h
        cases h
      | ok r =>
        obtain ⟨count, i₂⟩ := r
        have h₂ := parses_word.cursor_le h₁ hcount
        rw [hcount, quiet_ok_bind] at h
        rw [quiet_ok_bind]
        simp only [mem_withCapacity_bind] at h ⊢
        rw [withCapacity_bind_outcome] at h
        by_cases hcap : count.toNat * unstakeRequestSize > isizeMax
        · exact ⟨_, .inl rfl, hcap⟩
        · rw [if_neg hcap, readRequests_eq hlen _ _ h₂] at h
          rw [readRequests_eq hlen _ _ h₂]
          cases hreq : RustProof.readRequests bytes count.toNat [] i₂ with
          | error e =>
            rw [hreq] at h
            cases h
          | ok r =>
            obtain ⟨requests, i₃⟩ := r
            have h₃ := (parses_requests count.toNat []).cursor_le h₂ hreq
            rw [hreq, quiet_ok_bind] at h
            obtain ⟨r, hr, hover⟩ := ih h₃ h
            rw [quiet_ok_bind]
            exact ⟨r, .inr ⟨Nat.not_lt.1 hcap, hr⟩, hover⟩

theorem bind_pure_reservations (x : Reading α) (f : α → β) : (x >>= fun a => pure (f a)).reservations = x.reservations := by
  obtain ⟨l, o⟩ := x
  rcases o with p | e | a <;> simp [bind, pure]

theorem bind_pure_outcome (x : Reading α) (f : α → β) :
    (x >>= fun a => pure (f a)).outcome = x.outcome.map (Except.map f) := by
  obtain ⟨l, o⟩ := x
  rcases o with p | e | a <;> rfl

theorem fromBytes_panics (hlen : bytes.length ≤ isizeMax) {p : Panic} (h : (fromBytes bytes).outcome = .error p) :
    ∃ r ∈ (fromBytes bytes).reservations, isizeMax < r.capacity * unstakeRequestSize := by
  rw [fromBytes_eq hlen] at h ⊢
  cases hheader : readHeader bytes with
  | error e =>
    rw [hheader] at h
    cases h
  | ok r =>
    obtain ⟨⟨s, len⟩, i⟩ := r
    obtain ⟨_, _, _, t, -, -, -, -, rfl, rfl⟩ := readHeader_ok_iff.1 hheader
    rw [hheader, quiet_ok_bind, bind_pure_outcome] at h
    rw [quiet_ok_bind, bind_pure_reservations]
    refine readAccounts_panics (p := p) hlen (by simp) ?_
    cases hout : (readAccounts _ len.toNat .empty _).outcome with
    | error q =>
      rw [hout] at h
      cases h
      rfl
    | ok r =>
      rw [hout] at h
      cases h

/-- an account of which the key and the count are there -/
theorem readAccounts_head {pre t : List UInt8} (k : PublicKeyBytes) (count : UInt64)
    (hlen : (pre ++ (k.bytes ++ (u64ToBe count ++ t))).length ≤ isizeMax) (n : ℕ)
    (m : BTreeMap PublicKeyBytes (List UnstakeRequest)) :
    readAccounts (pre ++ (k.bytes ++ (u64ToBe count ++ t))) (n + 1) m pre.length =
      withCapacity count.toNat (pre ++ (k.bytes ++ u64ToBe count)).length >>= fun _ =>
        quiet (RustProof.readRequests (pre ++ (k.bytes ++ (u64ToBe count ++ t))) count.toNat []
            (pre ++ (k.bytes ++ u64ToBe count)).length) >>= fun r =>
          readAccounts (pre ++ (k.bytes ++ (u64ToBe count ++ t))) n (m.insert k r.1) r.2 := by
  have hkey := reads_array "Unexpected EOF reading key" k pre (u64ToBe count ++ t)
  have hcount := reads_u64 "Unexpected EOF reading u64" count (pre ++ k.bytes) t
  rw [List.append_assoc, List.append_assoc] at hcount
  rw [readAccounts, readKey_eq hlen (by simp), RustProof.readKey, hkey, quiet_ok_bind]
  simp only
  rw [readU64_eq hlen (by simp), readWord, hcount, quiet_ok_bind]
  simp only
  rw [readRequests_eq hlen _ _ (by simp)]

/-- an account of which the key or the count is cut off -/
theorem readAccounts_cut {pre s : List UInt8} (hlen : (pre ++ s).length ≤ isizeMax)
    (hcut : ∀ (k : PublicKeyBytes) (count : UInt64) t, s ≠ k.bytes ++ (u64ToBe count ++ t)) (n : ℕ)
    (m : BTreeMap PublicKeyBytes (List UnstakeRequest)) :
    ∃ e, readAccounts (pre ++ s) (n + 1) m pre.length = quiet (.error e) := by
  unfold readAccounts
  rw [readKey_eq hlen (by simp)]
  cases hkey : RustProof.readKey (pre ++ s) pre.length with
  | error e => exact ⟨e, quiet_error_bind e _⟩
  | ok r =>
    obtain ⟨k, i⟩ := r
    obtain ⟨_, t, rfl, rfl, rfl⟩ := (parses_key _ _ _ _).1 hkey
    rw [quiet_ok_bind]
    simp only
    rw [readU64_eq hlen (by simp)]
    cases hcount : readWord (pre ++ (k.bytes ++ t)) (pre ++ k.bytes).length with
    | error e => exact ⟨e, quiet_error_bind e _⟩
    | ok r =>
      obtain ⟨count, j⟩ := r
      rw [← List.append_assoc] at hcount
      obtain ⟨_, t', rfl, rfl, rfl⟩ := (parses_word _ _ _ _).1 hcount
      exact absurd rfl (hcut k count t')

end Accounts

end Reading

/-! ## The announced counts -/

theorem not_announces_cut {n : ℕ} {s rest : List UInt8} {count : UInt64}
    (hcut : ∀ (k : PublicKeyBytes) (c : UInt64) t, s ≠ k.bytes ++ (u64ToBe c ++ t)) : ¬ Announces n s count rest := by
  intro h
  cases h with
  | here n key count rest => exact hcut key count rest rfl
  | next key requests _ => exact hcut key _ _ rfl

theorem Announces.length_le {n : ℕ} {s rest : List UInt8} {count : UInt64} (h : Announces n s count rest) :
    rest.length ≤ s.length := by
  induction h with
  | here n key count rest =>
    simp only [List.length_append]
    omega
  | next key requests _ ih =>
    simp only [List.length_append]
    omega

theorem announces_head_iff {n : ℕ} {k : PublicKeyBytes} {c count : UInt64} {t rest : List UInt8} :
    Announces (n + 1) (k.bytes ++ (u64ToBe c ++ t)) count rest ↔
      count = c ∧ rest = t ∨ ∃ requests s, UInt64.ofNat requests.length = c ∧ t = requestBytes requests ++ s ∧
        Announces n s count rest := by
  constructor
  · intro h
    generalize hs : k.bytes ++ (u64ToBe c ++ t) = s at h
    cases h with
    | here n key count rest =>
      obtain ⟨rfl, htail⟩ := U8Array.append_inj hs
      obtain ⟨rfl, rfl⟩ := u64ToBe_append_inj htail
      exact .inl ⟨rfl, rfl⟩
    | @next n s rest count key requests h =>
      obtain ⟨rfl, htail⟩ := U8Array.append_inj hs
      obtain ⟨rfl, rfl⟩ := u64ToBe_append_inj htail
      exact .inr ⟨requests, s, rfl, rfl, h⟩
  · rintro (⟨rfl, rfl⟩ | ⟨requests, s, rfl, rfl, h⟩)
    · exact .here n k count rest
    · exact .next k requests h

/-- the reservations are made for the announced counts, with the cursor before what follows them -/
theorem mem_reservations_accounts {pre s : List UInt8} (hlen : (pre ++ s).length ≤ isizeMax) (n : ℕ)
    (m : BTreeMap PublicKeyBytes (List UnstakeRequest)) (r : Reservation) :
    r ∈ (Reading.readAccounts (pre ++ s) n m pre.length).reservations ↔
      ∃ count rest, Announces n s count rest ∧ r = ⟨count.toNat, (pre ++ s).length - rest.length⟩ := by
  induction n generalizing pre s m with
  | zero =>
    constructor
    · intro hr
      exact absurd hr List.not_mem_nil
    · rintro ⟨count, rest, h, -⟩
      cases h
  | succ n ih =>
    by_cases hcut : ∀ (k : PublicKeyBytes) (c : UInt64) t, s ≠ k.bytes ++ (u64ToBe c ++ t)
    · obtain ⟨e, he⟩ := Reading.readAccounts_cut hlen hcut n m
      rw [he]
      constructor
      · intro hr
        exact absurd hr List.not_mem_nil
      · rintro ⟨count, rest, h, -⟩
        exact absurd h (not_announces_cut hcut)
    push Not at hcut
    obtain ⟨k, c, t, rfl⟩ := hcut
    rw [Reading.readAccounts_head k c hlen, Reading.mem_withCapacity_bind, Reading.mem_quiet_bind]
    have hcursor : (pre ++ (k.bytes ++ u64ToBe c)).length = (pre ++ (k.bytes ++ (u64ToBe c ++ t))).length - t.length := by
      simp only [List.length_append]
      omega
    have hbuf : pre ++ (k.bytes ++ (u64ToBe c ++ t)) = (pre ++ (k.bytes ++ u64ToBe c)) ++ t := by
      simp only [List.append_assoc]
    simp only [announces_head_iff]
    constructor
    · rintro (rfl | ⟨-, ⟨requests, j⟩, hreq, hr⟩)
      · exact ⟨c, t, .inl ⟨rfl, rfl⟩, by rw [hcursor]⟩
      · rw [hbuf] at hreq
        obtain ⟨_, s, ⟨l, hl, hrequests, rfl⟩, rfl, rfl⟩ := (parses_requests _ _ _ _ _ _).1 hreq
        rw [hbuf, ← List.append_assoc] at hr hlen
        obtain ⟨count, rest, h, rfl⟩ := (ih hlen _).1 hr
        refine ⟨count, rest, .inr ⟨l, s, by rw [hl, UInt64.ofNat_toNat], rfl, h⟩, ?_⟩
        simp only [List.append_assoc]
    · rintro ⟨count, rest, ⟨rfl, rfl⟩ | ⟨l, s, rfl, rfl, h⟩, hr⟩
      · exact .inl (by rw [hr, hcursor])
      · have hsize : 16 * l.length ≤ isizeMax := by
          rw [← length_requestBytes]
          simp only [List.length_append] at hlen
          omega
        have hcount : (UInt64.ofNat l.length).toNat = l.length := by
          have := isizeMax_lt
          exact toNat_lenPrefix (by omega)
        refine .inr ⟨by rw [hcount, unstakeRequestSize, Nat.mul_comm]; exact hsize,
          (l, (pre ++ (k.bytes ++ u64ToBe (UInt64.ofNat l.length)) ++ requestBytes l).length), ?_, ?_⟩
        · rw [hbuf]
          exact (parses_requests _ _ _ _ _ _).2 ⟨requestBytes l, s, ⟨l, hcount.symm, rfl, rfl⟩, rfl, rfl⟩
        · rw [hbuf, ← List.append_assoc] at hlen ⊢
          exact (ih hlen _).2 ⟨count, rest, h, by rw [hr]; simp only [List.append_assoc]⟩

theorem length_le_mapBytes (l : List (PublicKeyBytes × UInt64)) : l.length ≤ (mapBytes l).length := by
  have hentries : l.length ≤ (entryBytes l).length := by
    induction l with
    | nil => exact le_rfl
    | cons e l ih =>
      rw [entryBytes, List.flatMap_cons, List.length_append, List.length_append, length_u64ToBe, List.length_cons]
      change l.length ≤ (entryBytes l).length at ih
      change l.length + 1 ≤ _ + (entryBytes l).length
      omega
  rw [mapBytes, List.length_append]
  omega

theorem mem_reservations {bytes : List UInt8} (hlen : bytes.length ≤ isizeMax) (r : Reservation) :
    r ∈ (Reading.fromBytes bytes).reservations ↔ ∃ balances nonces stakes len s count rest,
      bytes = headerBytes balances nonces stakes len ++ s ∧ Announces len.toNat s count rest ∧
        r = ⟨count.toNat, bytes.length - rest.length⟩ := by
  rw [Reading.fromBytes_eq hlen, Reading.mem_quiet_bind]
  constructor
  · rintro ⟨⟨⟨s₀, len⟩, j⟩, hheader, hr⟩
    obtain ⟨balances, nonces, stakes, s, -, -, -, -, rfl, rfl⟩ := readHeader_ok_iff.1 hheader
    rw [Reading.bind_pure_reservations] at hr
    obtain ⟨count, rest, h, hr⟩ := (mem_reservations_accounts hlen _ _ _).1 hr
    exact ⟨balances, nonces, stakes, len, s, count, rest, rfl, h, hr⟩
  · rintro ⟨balances, nonces, stakes, len, s, count, rest, rfl, h, hr⟩
    have hmax := isizeMax_lt
    have hsize : (mapBytes balances).length + (mapBytes nonces).length + (mapBytes stakes).length < 2 ^ 64 := by
      simp only [headerBytes, List.length_append] at hlen
      omega
    have hb := length_le_mapBytes balances
    have hn := length_le_mapBytes nonces
    have hs := length_le_mapBytes stakes
    refine ⟨((_, len), _), readHeader_ok_iff.2 ⟨balances, nonces, stakes, s, by omega, by omega, by omega, rfl, rfl, rfl⟩, ?_⟩
    rw [Reading.bind_pure_reservations]
    exact (mem_reservations_accounts hlen _ _ _).2 ⟨count, rest, h, hr⟩

/-! ## The result -/

/-- `from_bytes` returns, and reserves for no more requests than the rest of the input could hold, sixteen bytes each -/
structure NeverPanics (bytes : List UInt8) : Prop where
  returns : ∃ r, (Reading.fromBytes bytes).outcome = .ok r
  reserves : ∀ r ∈ (Reading.fromBytes bytes).reservations, r.capacity * 16 ≤ bytes.length - r.cursor

/-- what is modelled here is the reader of the snapshot format; no addition and no slice of it panics -/
theorem fromBytes_outcome {bytes : List UInt8} (hlen : bytes.length ≤ isizeMax) :
    (Reading.fromBytes bytes).outcome = (State.fromBytes bytes).mapError fun _ => .capacityOverflow := by
  rw [Reading.fromBytes_eq hlen, State.fromBytes]
  cases hheader : readHeader bytes with
  | error e => rfl
  | ok r =>
    obtain ⟨⟨s, len⟩, i⟩ := r
    obtain ⟨_, _, _, t, -, -, -, -, rfl, rfl⟩ := readHeader_ok_iff.1 hheader
    rw [Reading.quiet_ok_bind, Reading.bind_pure_outcome, Reading.readAccounts_outcome hlen _ _ (by simp)]
    simp only
    cases readAccounts _ len.toNat .empty _ with
    | error f => rfl
    | ok r => cases r <;> rfl

/-- **Decoding panics exactly on counts beyond the input.** On a target whose `usize` has 64 bits, for every byte string (no
slice is longer than `isize::MAX`): `from_bytes` returns and reserves no more than the rest of the input could fill if and only
if every announced count of requests is followed by that many requests' worth of bytes. With 32 bits `req_len as usize` keeps
the lower half of a count, so that some counts from 2^32 on do no harm. -/
theorem decoding_never_panics_iff {bytes : List UInt8} (hlen : bytes.length ≤ isizeMax) :
    NeverPanics bytes ↔ RequestsFit bytes := by
  constructor
  · intro h balances nonces stakes len s count rest hbytes hannounces
    have hr := h.reserves _ ((mem_reservations hlen _).2 ⟨balances, nonces, stakes, len, s, count, rest, hbytes, hannounces, rfl⟩)
    have hrest : rest.length ≤ bytes.length := by
      rw [hbytes, List.length_append]
      exact Nat.le_add_left_of_le hannounces.length_le
    simp only at hr
    omega
  · intro h
    have hreserves : ∀ r ∈ (Reading.fromBytes bytes).reservations, r.capacity * 16 ≤ bytes.length - r.cursor := by
      intro r hr
      obtain ⟨balances, nonces, stakes, len, s, count, rest, hbytes, hannounces, rfl⟩ := (mem_reservations hlen r).1 hr
      have hfit := h _ _ _ _ _ _ _ hbytes hannounces
      have hrest : rest.length ≤ bytes.length := by
        rw [hbytes, List.length_append]
        exact Nat.le_add_left_of_le hannounces.length_le
      simp only
      omega
    refine ⟨?_, hreserves⟩
    cases hout : (Reading.fromBytes bytes).outcome with
    | ok r => exact ⟨r, rfl⟩
    | error p =>
      obtain ⟨r, hr, hover⟩ := Reading.fromBytes_panics hlen hout
      have := hreserves r hr
      unfold unstakeRequestSize at hover
      omega

section Witness

/-- three empty maps, and one account that announces `count` requests -/
def announcing (count : UInt64) : List UInt8 :=
  headerBytes [] [] [] 1 ++ ((U8Array.zero publicKeySize).bytes ++ u64ToBe count)

/-- with the one request it announces, the account is decoded -/
def oneRequest : List UInt8 := announcing 1 ++ (u64ToBe 5 ++ u64ToBe 9)

theorem decoding_never_panics_iff_one : RequestsFit oneRequest := by
  have hlen : oneRequest.length ≤ isizeMax := by decide +kernel
  have hreturns : (Reading.fromBytes oneRequest).outcome.isOk = true := by decide +kernel
  have hreserves : ∀ r ∈ (Reading.fromBytes oneRequest).reservations, r.capacity * 16 ≤ oneRequest.length - r.cursor := by
    decide +kernel
  refine (decoding_never_panics_iff hlen).1 ⟨?_, hreserves⟩
  cases hout : (Reading.fromBytes oneRequest).outcome with
  | error p =>
    rw [hout] at hreturns
    cases hreturns
  | ok r => exact ⟨r, rfl⟩

/-- with the largest count and nothing behind it, `Vec::with_capacity` panics -/
theorem decoding_panics_on_announcing :
    (announcing (UInt64.ofNat (2 ^ 64 - 1))).length ≤ isizeMax ∧
      State.fromBytes (announcing (UInt64.ofNat (2 ^ 64 - 1))) = .error .capacity ∧
      ¬ NeverPanics (announcing (UInt64.ofNat (2 ^ 64 - 1))) := by
  have hlen : (announcing (UInt64.ofNat (2 ^ 64 - 1))).length ≤ isizeMax := by decide +kernel
  have hpanic : (match State.fromBytes (announcing (UInt64.ofNat (2 ^ 64 - 1))) with
      | .error f => decide (f = .capacity)
      | .ok _ => false) = true := by decide +kernel
  have hfault : State.fromBytes (announcing (UInt64.ofNat (2 ^ 64 - 1))) = .error .capacity := by
    cases hout : State.fromBytes (announcing (UInt64.ofNat (2 ^ 64 - 1))) with
    | error f =>
      rw [hout] at hpanic
      rw [of_decide_eq_true hpanic]
    | ok r =>
      rw [hout] at hpanic
      cases hpanic
  refine ⟨hlen, hfault, fun h => ?_⟩
  obtain ⟨r, hr⟩ := h.returns
  rw [fromBytes_outcome hlen, hfault] at hr
  cases hr

end Witness

end RustProof
