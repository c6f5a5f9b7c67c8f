/-
The snapshot format of the account state (`ToBytes for State`, `FromBytes for State`): four length-counted sections, the
last one nested, written with big-endian words and read back with a hand-kept cursor.

The reader can fail in two ways. A short buffer is an error it reports; a request count that no buffer could hold makes
`Vec::with_capacity` panic (`Fault.capacity`).

Results:
- `fromBytes_toBytes`: a state is read back from its own bytes, whatever follows them;
- `snapshot_round_trip_and_truncation`: besides, bytes cut short anywhere are an error;
- `fromBytes_fits`: whatever is read back fits in memory.
-/
import RustProof.Core.State

namespace RustProof

/-! ## Writer -/

/-- `write_u64_map` -/
def writeU64Map (m : BTreeMap PublicKeyBytes UInt64) : List UInt8 :=
  lenPrefix m.len ++ m.entries.flatMap fun e => e.1.bytes ++ u64ToBe e.2

def writeRequests (requests : List UnstakeRequest) : List UInt8 :=
  lenPrefix requests.length ++ requests.flatMap fun r => u64ToBe r.amount ++ u64ToBe r.unlockSlot

def writeUnstaking (m : BTreeMap PublicKeyBytes (List UnstakeRequest)) : List UInt8 :=
  lenPrefix m.len ++ m.entries.flatMap fun e => e.1.bytes ++ writeRequests e.2

def State.toBytes (s : State) : List UInt8 :=
  writeU64Map s.balances ++ (writeU64Map s.nonces ++ (writeU64Map s.stakes ++ writeUnstaking s.unstaking))

/-! ## Reader -/

/-- `read_u64` -/
def readWord (bytes : List UInt8) (i : ℕ) : Except String (UInt64 × ℕ) := readU64 "Unexpected EOF reading u64" bytes i

/-- `read_key` -/
def readKey (bytes : List UInt8) (i : ℕ) : Except String (PublicKeyBytes × ℕ) :=
  readArray publicKeySize "Unexpected EOF reading key" bytes i

/-- `for _ in 0..len { map.insert(read_key, read_u64) }` -/
def readEntries (bytes : List UInt8) :
    ℕ → BTreeMap PublicKeyBytes UInt64 → ℕ → Except String (BTreeMap PublicKeyBytes UInt64 × ℕ)
  | 0, map, i => .ok (map, i)
  | n + 1, map, i => do
    let (k, i) ← readKey bytes i
    let (v, i) ← readWord bytes i
    readEntries bytes n (map.insert k v) i

def readU64Map (bytes : List UInt8) (i : ℕ) : Except String (BTreeMap PublicKeyBytes UInt64 × ℕ) := do
  let (len, i) ← readWord bytes i
  readEntries bytes len.toNat .empty i

def readRequests (bytes : List UInt8) : ℕ → List UnstakeRequest → ℕ → Except String (List UnstakeRequest × ℕ)
  | 0, requests, i => .ok (requests, i)
  | n + 1, requests, i => do
    let (amount, i) ← readWord bytes i
    let (unlockSlot, i) ← readWord bytes i
    readRequests bytes n (requests ++ [⟨amount, unlockSlot⟩]) i

/-- an account of the last section; `Vec::with_capacity(req_len)` panics beyond `isize::MAX` bytes -/
def readAccount (bytes : List UInt8) (i : ℕ) :
    Except Fault (Except String ((PublicKeyBytes × List UnstakeRequest) × ℕ)) :=
  match readKey bytes i with
  | .error e => .ok (.error e)
  | .ok (k, i) =>
    match readWord bytes i with
    | .error e => .ok (.error e)
    | .ok (reqLen, i) =>
      if reqLen.toNat * unstakeRequestSize > isizeMax then .error .capacity
      else
        match readRequests bytes reqLen.toNat [] i with
        | .error e => .ok (.error e)
        | .ok (requests, i) => .ok (.ok ((k, requests), i))

def readAccounts (bytes : List UInt8) : ℕ → BTreeMap PublicKeyBytes (List UnstakeRequest) → ℕ →
    Except Fault (Except String (BTreeMap PublicKeyBytes (List UnstakeRequest)))
  | 0, map, _ => .ok (.ok map)
  | n + 1, map, i =>
    match readAccount bytes i with
    | .error f => .error f
    | .ok (.error e) => .ok (.error e)
    | .ok (.ok ((k, requests), i)) => readAccounts bytes n (map.insert k requests) i

/-- the first three sections and the count of the fourth -/
def readHeader (bytes : List UInt8) : Except String ((State × UInt64) × ℕ) := do
  let (balances, i) ← readU64Map bytes 0
  let (nonces, i) ← readU64Map bytes i
  let (stakes, i) ← readU64Map bytes i
  let (unstakingLen, i) ← readWord bytes i
  pure ((⟨balances, nonces, stakes, .empty⟩, unstakingLen), i)

def State.fromBytes (bytes : List UInt8) : Except Fault (Except String State) :=
  match readHeader bytes with
  | .error e => .ok (.error e)
  | .ok ((s, unstakingLen), i) =>
    match readAccounts bytes unstakingLen.toNat .empty i with
    | .error f => .error f
    | .ok (.error e) => .ok (.error e)
    | .ok (.ok unstaking) => .ok (.ok { s with unstaking := unstaking })

/-! ## Round trip -/

theorem toNat_lenPrefix {n : ℕ} (h : n < 2 ^ 64) : (UInt64.ofNat n).toNat = n := by
  rw [UInt64.toNat_ofNat', Nat.mod_eq_of_lt h]

theorem readEntries_reads (l : List (PublicKeyBytes × UInt64)) (m : BTreeMap PublicKeyBytes UInt64) :
    Reads (fun bytes i => readEntries bytes l.length m i) (l.flatMap fun e => e.1.bytes ++ u64ToBe e.2)
      (l.foldl (fun m e => m.insert e.1 e.2) m) := by
  induction l generalizing m with
  | nil => intro pre post; simp [readEntries]
  | cons e l ih =>
    intro pre post
    simp only [List.flatMap_cons, List.length_cons, readEntries, List.foldl_cons]
    obtain ⟨hk, hpre⟩ := (reads_array "Unexpected EOF reading key" e.1).next pre
      (u64ToBe e.2 ++ l.flatMap fun e => e.1.bytes ++ u64ToBe e.2) post
    rw [List.append_assoc e.1.bytes, readKey, hk, hpre]
    obtain ⟨hv, hpre'⟩ := (reads_u64 "Unexpected EOF reading u64" e.2).next (pre ++ e.1.bytes)
      (l.flatMap fun e => e.1.bytes ++ u64ToBe e.2) post
    simp only [bind, Except.bind, readWord, hv]
    rw [hpre']
    refine (ih (m.insert e.1 e.2) _ post).trans ?_
    simp

theorem readU64Map_reads {m : BTreeMap PublicKeyBytes UInt64} (hm : m.len < 2 ^ 64) :
    Reads readU64Map (writeU64Map m) m := by
  intro pre post
  obtain ⟨hlen, hpre⟩ := (reads_u64 "Unexpected EOF reading u64" (UInt64.ofNat m.len)).next pre
    (m.entries.flatMap fun e => e.1.bytes ++ u64ToBe e.2) post
  simp only [readU64Map, writeU64Map, lenPrefix, readWord, hlen, bind, Except.bind, toNat_lenPrefix hm]
  rw [hpre]
  refine (readEntries_reads m.entries .empty _ post).trans ?_
  rw [BTreeMap.foldl_insert_entries]
  simp

theorem readRequests_reads (l acc : List UnstakeRequest) :
    Reads (fun bytes i => readRequests bytes l.length acc i)
      (l.flatMap fun r => u64ToBe r.amount ++ u64ToBe r.unlockSlot) (acc ++ l) := by
  induction l generalizing acc with
  | nil => intro pre post; simp [readRequests]
  | cons r l ih =>
    intro pre post
    simp only [List.flatMap_cons, List.length_cons, readRequests]
    obtain ⟨h1, hpre⟩ := (reads_u64 "Unexpected EOF reading u64" r.amount).next pre
      (u64ToBe r.unlockSlot ++ l.flatMap fun r => u64ToBe r.amount ++ u64ToBe r.unlockSlot) post
    rw [List.append_assoc (u64ToBe r.amount), readWord, h1, hpre]
    obtain ⟨h2, hpre'⟩ := (reads_u64 "Unexpected EOF reading u64" r.unlockSlot).next (pre ++ u64ToBe r.amount)
      (l.flatMap fun r => u64ToBe r.amount ++ u64ToBe r.unlockSlot) post
    simp only [bind, Except.bind, readWord, h2]
    rw [hpre']
    refine (ih (acc ++ [r]) _ post).trans ?_
    simp

theorem isizeMax_lt : isizeMax < 2 ^ 64 := by decide

/-- a request list that fits in memory is read back -/
theorem readAccount_eq {k : PublicKeyBytes} {l : List UnstakeRequest} (hl : l.length * unstakeRequestSize ≤ isizeMax)
    (pre post : List UInt8) :
    readAccount (pre ++ ((k.bytes ++ writeRequests l) ++ post)) pre.length =
      .ok (.ok ((k, l), (pre ++ (k.bytes ++ writeRequests l)).length)) := by
  have hlen : l.length < 2 ^ 64 := by
    have := isizeMax_lt
    unfold unstakeRequestSize at hl
    omega
  obtain ⟨hk, hpre⟩ := (reads_array "Unexpected EOF reading key" k).next pre (writeRequests l) post
  obtain ⟨hn, hpre'⟩ := (reads_u64 "Unexpected EOF reading u64" (UInt64.ofNat l.length)).next (pre ++ k.bytes)
    (l.flatMap fun r => u64ToBe r.amount ++ u64ToBe r.unlockSlot) post
  have hr := readRequests_reads l [] ((pre ++ k.bytes) ++ u64ToBe (UInt64.ofNat l.length)) post
  simp only [readAccount, readKey, hk]
  rw [hpre]
  simp only [writeRequests, lenPrefix, readWord, hn]
  rw [hpre', toNat_lenPrefix hlen, if_neg (by omega)]
  simp only [hr]
  simp

theorem readAccounts_eq (l : List (PublicKeyBytes × List UnstakeRequest))
    (hl : ∀ e ∈ l, e.2.length * unstakeRequestSize ≤ isizeMax) (m : BTreeMap PublicKeyBytes (List UnstakeRequest))
    (pre post : List UInt8) :
    readAccounts (pre ++ ((l.flatMap fun e => e.1.bytes ++ writeRequests e.2) ++ post)) l.length m pre.length =
      .ok (.ok (l.foldl (fun m e => m.insert e.1 e.2) m)) := by
  induction l generalizing m pre with
  | nil => simp [readAccounts]
  | cons e l ih =>
    have hbuf : pre ++ (((e :: l).flatMap fun e => e.1.bytes ++ writeRequests e.2) ++ post) =
        pre ++ ((e.1.bytes ++ writeRequests e.2) ++ ((l.flatMap fun e => e.1.bytes ++ writeRequests e.2) ++ post)) := by
      simp
    have hnext : pre ++ ((e.1.bytes ++ writeRequests e.2) ++
          ((l.flatMap fun e => e.1.bytes ++ writeRequests e.2) ++ post)) =
        (pre ++ (e.1.bytes ++ writeRequests e.2)) ++
          ((l.flatMap fun e => e.1.bytes ++ writeRequests e.2) ++ post) := by
      simp
    rw [hbuf]
    simp only [List.length_cons, readAccounts, readAccount_eq (hl e List.mem_cons_self), List.foldl_cons]
    rw [hnext]
    exact ih (fun e' he' => hl e' (List.mem_cons_of_mem _ he')) _ _

theorem readHeader_eq {s : State} (hs : s.Fits) (post : List UInt8) :
    readHeader (writeU64Map s.balances ++ (writeU64Map s.nonces ++ (writeU64Map s.stakes ++
        (u64ToBe (UInt64.ofNat s.unstaking.len) ++ post)))) =
      .ok ((⟨s.balances, s.nonces, s.stakes, .empty⟩, UInt64.ofNat s.unstaking.len),
        (writeU64Map s.balances ++ (writeU64Map s.nonces ++ (writeU64Map s.stakes ++
          u64ToBe (UInt64.ofNat s.unstaking.len)))).length) := by
  have h1 := readU64Map_reads hs.balances []
    (writeU64Map s.nonces ++ (writeU64Map s.stakes ++ (u64ToBe (UInt64.ofNat s.unstaking.len) ++ post)))
  have h2 := readU64Map_reads hs.nonces (writeU64Map s.balances)
    (writeU64Map s.stakes ++ (u64ToBe (UInt64.ofNat s.unstaking.len) ++ post))
  have h3 := readU64Map_reads hs.stakes (writeU64Map s.balances ++ writeU64Map s.nonces)
    (u64ToBe (UInt64.ofNat s.unstaking.len) ++ post)
  have h4 := reads_u64 "Unexpected EOF reading u64" (UInt64.ofNat s.unstaking.len)
    (writeU64Map s.balances ++ writeU64Map s.nonces ++ writeU64Map s.stakes) post
  simp only [List.nil_append, List.length_nil, List.append_assoc] at h1 h2 h3 h4
  simp only [readHeader, h1, h2, h3, h4, readWord, bind, Except.bind, pure, Except.pure]

/-- **Round trip.** A state that fits in memory is read back from its bytes, whatever follows them. -/
theorem fromBytes_toBytes {s : State} (hs : s.Fits) (t : List UInt8) : State.fromBytes (s.toBytes ++ t) = .ok (.ok s) := by
  have hacc := readAccounts_eq s.unstaking.entries
    (fun e he => hs.requests e.1 e.2 ((s.unstaking.mem_entries_iff e.1 e.2).1 he)) .empty
    (writeU64Map s.balances ++ (writeU64Map s.nonces ++ (writeU64Map s.stakes ++
      u64ToBe (UInt64.ofNat s.unstaking.len)))) t
  have hhead := readHeader_eq hs ((s.unstaking.entries.flatMap fun e => e.1.bytes ++ writeRequests e.2) ++ t)
  simp only [List.append_assoc] at hacc hhead
  simp only [State.fromBytes, State.toBytes, writeUnstaking, lenPrefix, List.append_assoc, hhead,
    toNat_lenPrefix hs.unstaking]
  rw [show s.unstaking.len = s.unstaking.entries.length from rfl] at hacc ⊢
  rw [hacc, BTreeMap.foldl_insert_entries]

/-! ## Truncation -/

theorem readWord_truncated (x : UInt64) : Truncated readWord (u64ToBe x) := truncated_u64 _ x

theorem readWord_reads (x : UInt64) : Reads readWord (u64ToBe x) x := reads_u64 _ x

theorem readEntries_truncated (l : List (PublicKeyBytes × UInt64)) (m : BTreeMap PublicKeyBytes UInt64) :
    Truncated (fun bytes i => readEntries bytes l.length m i) (l.flatMap fun e => e.1.bytes ++ u64ToBe e.2) := by
  induction l generalizing m with
  | nil => exact truncated_nil _
  | cons e l ih =>
    have hword := Truncated.bind (fun v bytes i => readEntries bytes l.length (m.insert e.1 v) i)
      (readWord_reads e.2) (readWord_truncated e.2) (ih (m.insert e.1 e.2))
    have hkey := Truncated.bind
      (fun k bytes i => readWord bytes i >>= fun r => readEntries bytes l.length (m.insert k r.1) r.2)
      (reads_array "Unexpected EOF reading key" e.1) (truncated_array _ e.1) hword
    rw [List.flatMap_cons, List.append_assoc]
    exact hkey

theorem readU64Map_truncated {m : BTreeMap PublicKeyBytes UInt64} (hm : m.len < 2 ^ 64) :
    Truncated readU64Map (writeU64Map m) := by
  refine Truncated.bind (fun len bytes i => readEntries bytes len.toNat .empty i) (readWord_reads (UInt64.ofNat m.len))
    (readWord_truncated _) ?_
  rw [toNat_lenPrefix hm]
  exact readEntries_truncated m.entries .empty

theorem readRequests_truncated (l acc : List UnstakeRequest) :
    Truncated (fun bytes i => readRequests bytes l.length acc i)
      (l.flatMap fun r => u64ToBe r.amount ++ u64ToBe r.unlockSlot) := by
  induction l generalizing acc with
  | nil => exact truncated_nil _
  | cons r l ih =>
    have hslot := Truncated.bind (fun v bytes i => readRequests bytes l.length (acc ++ [⟨r.amount, v⟩]) i)
      (readWord_reads r.unlockSlot) (readWord_truncated r.unlockSlot) (ih (acc ++ [r]))
    have hamount := Truncated.bind
      (fun a bytes i => readWord bytes i >>= fun p =>
        readRequests bytes l.length (acc ++ [(⟨a, p.1⟩ : UnstakeRequest)]) p.2)
      (readWord_reads r.amount) (readWord_truncated r.amount) hslot
    rw [List.flatMap_cons, List.append_assoc]
    exact hamount

/-- an account cut short is an error, never a panic: the request count is read whole or not at all -/
theorem readAccount_truncated {k : PublicKeyBytes} {l : List UnstakeRequest}
    (hl : l.length * unstakeRequestSize ≤ isizeMax) (pre q : List UInt8) (hq : CutOf q (k.bytes ++ writeRequests l)) :
    ∃ e, readAccount (pre ++ q) pre.length = .ok (.error e) := by
  have hlen : l.length < 2 ^ 64 := by
    have := isizeMax_lt
    unfold unstakeRequestSize at hl
    omega
  unfold readAccount
  rcases hq.append with hkey | ⟨q', rfl, hrest⟩
  · obtain ⟨e, he⟩ := truncated_array "Unexpected EOF reading key" k pre q hkey
    exact ⟨e, by simp only [readKey, he]⟩
  · simp only [readKey, reads_array "Unexpected EOF reading key" k pre q']
    rw [← List.append_assoc pre]
    rcases hrest.append with hcount | ⟨q'', rfl, hreqs⟩
    · obtain ⟨e, he⟩ := truncated_u64 "Unexpected EOF reading u64" (UInt64.ofNat l.length) (pre ++ k.bytes) q' hcount
      exact ⟨e, by simp only [readWord, he]⟩
    · have hcount := reads_u64 "Unexpected EOF reading u64" (UInt64.ofNat l.length) (pre ++ k.bytes) q''
      obtain ⟨e, he⟩ := readRequests_truncated l [] (pre ++ k.bytes ++ u64ToBe (UInt64.ofNat l.length)) q'' hreqs
      simp only [lenPrefix, readWord, hcount, toNat_lenPrefix hlen]
      rw [if_neg (by omega), ← List.append_assoc (pre ++ k.bytes)]
      exact ⟨e, by simp only [he]⟩

theorem readAccounts_truncated (l : List (PublicKeyBytes × List UnstakeRequest))
    (hl : ∀ e ∈ l, e.2.length * unstakeRequestSize ≤ isizeMax) (m : BTreeMap PublicKeyBytes (List UnstakeRequest))
    (pre q : List UInt8) (hq : CutOf q (l.flatMap fun e => e.1.bytes ++ writeRequests e.2)) :
    ∃ e, readAccounts (pre ++ q) l.length m pre.length = .ok (.error e) := by
  induction l generalizing m pre q with
  | nil => exact absurd hq (not_cutOf_nil q)
  | cons a l ih =>
    rw [List.flatMap_cons] at hq
    rw [List.length_cons, readAccounts]
    rcases hq.append with hfst | ⟨q', rfl, hrest⟩
    · obtain ⟨e, he⟩ := readAccount_truncated (hl a List.mem_cons_self) pre q hfst
      exact ⟨e, by simp only [he]⟩
    · obtain ⟨e, he⟩ := ih (fun e' he' => hl e' (List.mem_cons_of_mem _ he')) (m.insert a.1 a.2)
        (pre ++ (a.1.bytes ++ writeRequests a.2)) q' hrest
      refine ⟨e, ?_⟩
      simp only [readAccount_eq (hl a List.mem_cons_self)]
      rw [← List.append_assoc pre]
      exact he

theorem readHeader_truncated {s : State} (hs : s.Fits) {q : List UInt8}
    (hq : CutOf q (writeU64Map s.balances ++ (writeU64Map s.nonces ++ (writeU64Map s.stakes ++
      u64ToBe (UInt64.ofNat s.unstaking.len))))) : ∃ e, readHeader q = .error e := by
  -- the header read from a cursor, with the sections read so far
  let counted (b nc st : BTreeMap PublicKeyBytes UInt64) (bytes : List UInt8) (i : ℕ) :
      Except String ((State × UInt64) × ℕ) :=
    readWord bytes i >>= fun r => pure ((⟨b, nc, st, .empty⟩, r.1), r.2)
  have hcount : Truncated (counted s.balances s.nonces s.stakes) (u64ToBe (UInt64.ofNat s.unstaking.len)) := by
    intro pre q hq
    obtain ⟨e, he⟩ := readWord_truncated _ pre q hq
    exact ⟨e, by simp only [counted, he]; rfl⟩
  have hstakes := Truncated.bind (counted s.balances s.nonces) (readU64Map_reads hs.stakes)
    (readU64Map_truncated hs.stakes) hcount
  have hnonces := Truncated.bind (fun nc bytes i => readU64Map bytes i >>= fun st => counted s.balances nc st.1 bytes st.2)
    (readU64Map_reads hs.nonces) (readU64Map_truncated hs.nonces) hstakes
  have hbalances := Truncated.bind
    (fun b bytes i => readU64Map bytes i >>= fun nc => readU64Map bytes nc.2 >>= fun st => counted b nc.1 st.1 bytes st.2)
    (readU64Map_reads hs.balances) (readU64Map_truncated hs.balances) hnonces
  exact hbalances [] q hq

/-- bytes of a state cut short anywhere are an error -/
theorem fromBytes_truncated {s : State} (hs : s.Fits) {p : List UInt8} (hp : CutOf p s.toBytes) :
    ∃ e, State.fromBytes p = .ok (.error e) := by
  have hbytes : s.toBytes = (writeU64Map s.balances ++ (writeU64Map s.nonces ++ (writeU64Map s.stakes ++
      u64ToBe (UInt64.ofNat s.unstaking.len)))) ++ s.unstaking.entries.flatMap fun e => e.1.bytes ++ writeRequests e.2 := by
    simp only [State.toBytes, writeUnstaking, lenPrefix, List.append_assoc]
  rw [hbytes] at hp
  unfold State.fromBytes
  rcases hp.append with hhead | ⟨q, rfl, hrest⟩
  · obtain ⟨e, he⟩ := readHeader_truncated hs hhead
    exact ⟨e, by simp only [he]⟩
  · obtain ⟨e, he⟩ := readAccounts_truncated s.unstaking.entries
      (fun e he => hs.requests e.1 e.2 ((s.unstaking.mem_entries_iff e.1 e.2).1 he)) .empty
      (writeU64Map s.balances ++ (writeU64Map s.nonces ++ (writeU64Map s.stakes ++
        u64ToBe (UInt64.ofNat s.unstaking.len)))) q hrest
    have hhead := readHeader_eq hs q
    simp only [List.append_assoc] at he hhead ⊢
    refine ⟨e, ?_⟩
    have hlen : s.unstaking.len = s.unstaking.entries.length := rfl
    simp only [hhead, toNat_lenPrefix hs.unstaking]
    rw [hlen] at he ⊢
    rw [he]

/-- **Snapshots round-trip and truncation is detected.** The bytes of a state, followed by anything, are read back as that
state in all four maps; bytes that end before the last byte of the state are an error, neither a state nor a panic. -/
theorem snapshot_round_trip_and_truncation {s : State} (hs : s.Fits) :
    (∀ t, State.fromBytes (s.toBytes ++ t) = .ok (.ok s)) ∧
      ∀ p, p <+: s.toBytes → p ≠ s.toBytes → ∃ e, State.fromBytes p = .ok (.error e) := by
  refine ⟨fromBytes_toBytes hs, fun p hp hne => ?_⟩
  obtain ⟨missing, hmissing⟩ := hp
  refine fromBytes_truncated hs ⟨missing, fun hnil => hne ?_, hmissing⟩
  rw [hnil, List.append_nil] at hmissing
  exact hmissing

section Witness

/-- a key of 33 times the same byte -/
def filledKey (b : UInt8) : PublicKeyBytes := ⟨List.replicate publicKeySize b, List.length_replicate⟩

/-- three balances, two nonces and one stake; an account without requests, and one with three -/
def snapshotState : State where
  balances := ((BTreeMap.empty.insert (filledKey 2) 100).insert (filledKey 7) 0).insert (filledKey 3) 40
  nonces := (BTreeMap.empty.insert (filledKey 2) 5).insert (filledKey 3) 1
  stakes := BTreeMap.empty.insert (filledKey 7) 60
  unstaking := (BTreeMap.empty.insert (filledKey 2) []).insert (filledKey 7) [⟨10, 70⟩, ⟨3, 66⟩, ⟨3, 66⟩]

theorem snapshotState_fits : snapshotState.Fits := by
  refine ⟨by decide, by decide, by decide, by decide, ?_⟩
  have hentries : ∀ e ∈ snapshotState.unstaking.entries, e.2.length * unstakeRequestSize ≤ isizeMax := by
    decide +kernel
  intro k l h
  exact hentries (k, l) ((snapshotState.unstaking.mem_entries_iff k l).2 h)

theorem snapshotState_length : snapshotState.toBytes.length = 408 := by
  decide +kernel

/-- its cuts fall into every section: after 24 bytes into the balances, after 359 to 407 into the nested requests of the
last account, after 376 between two of them -/
theorem snapshot_round_trip_and_truncation_of_accounts :
    snapshotState.Fits ∧ State.fromBytes (snapshotState.toBytes ++ [9]) = .ok (.ok snapshotState) ∧
      ∀ n < 408, ∃ e, State.fromBytes (snapshotState.toBytes.take n) = .ok (.error e) := by
  obtain ⟨hround, hcut⟩ := snapshot_round_trip_and_truncation snapshotState_fits
  refine ⟨snapshotState_fits, hround [9], ?_⟩
  intro n hn
  refine hcut _ (List.take_prefix n _) ?_
  intro heq
  have hlen := congrArg List.length heq
  rw [List.length_take, snapshotState_length] at hlen
  omega

end Witness

/-! ## What is read back fits -/

/-- a bind of readers that returned: both halves did -/
theorem read_bind_ok {α β : Type} {x : Except String α} {f : α → Except String β} {b : β} (h : x >>= f = .ok b) :
    ∃ a, x = .ok a ∧ f a = .ok b := by
  cases x with
  | error e => cases h
  | ok a => exact ⟨a, rfl, h⟩

theorem readEntries_len {bytes : List UInt8} {n : ℕ} {m m' : BTreeMap PublicKeyBytes UInt64} {i i' : ℕ}
    (h : readEntries bytes n m i = .ok (m', i')) : m'.len ≤ m.len + n := by
  induction n generalizing m i with
  | zero => cases h; omega
  | succ n ih =>
    obtain ⟨⟨k, j⟩, -, h⟩ := read_bind_ok h
    obtain ⟨⟨v, j'⟩, -, h⟩ := read_bind_ok h
    have := ih h
    have := m.len_insert_le k v
    omega

theorem readU64Map_len {bytes : List UInt8} {m : BTreeMap PublicKeyBytes UInt64} {i i' : ℕ}
    (h : readU64Map bytes i = .ok (m, i')) : m.len < 2 ^ 64 := by
  obtain ⟨⟨len, j⟩, -, h⟩ := read_bind_ok h
  have hle := readEntries_len h
  have hlt := len.toNat_lt
  have hz : (BTreeMap.empty : BTreeMap PublicKeyBytes UInt64).len = 0 := rfl
  omega

theorem readRequests_length {bytes : List UInt8} {n : ℕ} {l l' : List UnstakeRequest} {i i' : ℕ}
    (h : readRequests bytes n l i = .ok (l', i')) : l'.length = l.length + n := by
  induction n generalizing l i with
  | zero => cases h; omega
  | succ n ih =>
    obtain ⟨⟨a, j⟩, -, h⟩ := read_bind_ok h
    obtain ⟨⟨u, j'⟩, -, h⟩ := read_bind_ok h
    have := ih h
    simp at this
    omega

theorem readAccount_fits {bytes : List UInt8} {k : PublicKeyBytes} {l : List UnstakeRequest} {i i' : ℕ}
    (h : readAccount bytes i = .ok (.ok ((k, l), i'))) : l.length * unstakeRequestSize ≤ isizeMax := by
  unfold readAccount at h
  split at h
  · cases h
  · split at h
    · cases h
    · split_ifs at h with hcap
      split at h
      · cases h
      · rename_i hreq
        cases h
        have := readRequests_length hreq
        simp only [List.length_nil, Nat.zero_add] at this
        rw [this]; omega

theorem readAccounts_fits {bytes : List UInt8} {n : ℕ} {m m' : BTreeMap PublicKeyBytes (List UnstakeRequest)} {i : ℕ}
    (hm : ∀ k l, m.get? k = some l → l.length * unstakeRequestSize ≤ isizeMax)
    (h : readAccounts bytes n m i = .ok (.ok m')) :
    m'.len ≤ m.len + n ∧ ∀ k l, m'.get? k = some l → l.length * unstakeRequestSize ≤ isizeMax := by
  induction n generalizing m i with
  | zero => cases h; exact ⟨by omega, hm⟩
  | succ n ih =>
    unfold readAccounts at h
    split at h
    · cases h
    · cases h
    · rename_i k l j hacc
      obtain ⟨hlen, hreq⟩ := ih (m := m.insert k l) (fun k' l' hl' => by
        rw [BTreeMap.get?_insert] at hl'
        split_ifs at hl'
        · cases hl'; exact readAccount_fits hacc
        · exact hm k' l' hl') h
      have := m.len_insert_le k l
      exact ⟨by omega, hreq⟩

theorem fromBytes_fits {bytes : List UInt8} {s : State} (h : State.fromBytes bytes = .ok (.ok s)) : s.Fits := by
  unfold State.fromBytes at h
  split at h
  · cases h
  · rename_i s0 n i hhead
    split at h
    · cases h
    · cases h
    · rename_i u hacc
      cases h
      obtain ⟨⟨b, i1⟩, h1, hhead⟩ := read_bind_ok hhead
      obtain ⟨⟨nc, i2⟩, h2, hhead⟩ := read_bind_ok hhead
      obtain ⟨⟨st, i3⟩, h3, hhead⟩ := read_bind_ok hhead
      obtain ⟨⟨n', i4⟩, h4, hhead⟩ := read_bind_ok hhead
      cases hhead
      obtain ⟨hlen, hreq⟩ := readAccounts_fits (fun k l hl => by simp at hl) hacc
      have hn := n.toNat_lt
      have hz : (BTreeMap.empty : BTreeMap PublicKeyBytes (List UnstakeRequest)).len = 0 := rfl
      exact ⟨readU64Map_len h1, readU64Map_len h2, readU64Map_len h3, by simp only; omega, hreq⟩

end RustProof
