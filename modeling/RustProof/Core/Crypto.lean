/-
What the ledger takes from outside: the P-256 signature scheme (`p256`), SHA-256 (`sha2`), and the machine it runs on.

`Crypto` is the third-party cryptography as a parameter. Its two laws are documented behaviour: a verifying key is read
back from its compressed SEC1 encoding, and a signature from its fixed 64-byte form. Nothing else is assumed of it:
unforgeability and collision resistance appear, where a result needs them, as explicit premises.

A call of the program either returns or does not. `Fault` lists the ways it does not:
- `overflow`: a checked `u64` addition or subtraction overflowed. A debug build traps on every overflow, a release build
  wraps; `OverflowChecks` says which arithmetic traps, so that one definition stands for both (`debug`, `release`);
- `capacity`: a collection outgrew the address space (`Vec` beyond `isize::MAX` bytes, more map entries than a `usize`
  counts), where the allocator aborts. `usize` is 64 bits wide;
- `missingHead`: `expect("Blockchain should always have at least the genesis block")`;
- `diverges`: a loop that never ends.
-/
import RustProof.Lib.Bytes

namespace RustProof

abbrev Hash := U8Array 32

/-- `PUBLIC_KEY_SIZE` -/
abbrev publicKeySize : ℕ := 33

abbrev PublicKeyBytes := U8Array publicKeySize

class Crypto where
  VerifyingKey : Type
  Signature : Type
  keyDecEq : DecidableEq VerifyingKey
  verifyingKeyToBytes : VerifyingKey → PublicKeyBytes
  verifyingKeyFromBytes : PublicKeyBytes → Option VerifyingKey
  signatureToBytes : Signature → U8Array 64
  signatureFromBytes : U8Array 64 → Option Signature
  /-- `VerifyingKey::verify(msg, signature).is_ok()` -/
  verify : VerifyingKey → List UInt8 → Signature → Bool
  sha256 : List UInt8 → Hash
  genesisVerifyingKey : VerifyingKey
  key_round_trip : ∀ k, verifyingKeyFromBytes (verifyingKeyToBytes k) = some k
  signature_round_trip : ∀ s, signatureFromBytes (signatureToBytes s) = some s

export Crypto (VerifyingKey Signature verifyingKeyToBytes verifyingKeyFromBytes signatureToBytes signatureFromBytes
  verify sha256 genesisVerifyingKey)

instance [Crypto] : DecidableEq VerifyingKey := Crypto.keyDecEq

theorem verifyingKeyToBytes_injective [Crypto] : Function.Injective verifyingKeyToBytes := fun a b h =>
  Option.some.inj (by rw [← Crypto.key_round_trip a, h, Crypto.key_round_trip])

/-! ## Machine arithmetic -/

/-- the places where block application adds or subtracts `u64`s -/
inductive ArithSite where
  /-- `parent_block.height + 1` -/
  | height
  /-- a balance changed by `apply_tx` -/
  | balance
  /-- a stake changed by `apply_tx` -/
  | stake
  /-- the stake total and the running sum of `get_expected_validator` -/
  | stakeSum
  /-- a nonce incremented by `apply_tx` -/
  | nonce
  /-- `current_slot + UNSTAKE_LOCK_EPOCHS * EPOCH_LENGTH` -/
  | unlockSlot
deriving DecidableEq, Repr

inductive Fault where
  | overflow (site : ArithSite)
  | capacity
  | missingHead
  | diverges
deriving DecidableEq, Repr

/-- which arithmetic traps on overflow; the rest wraps -/
abbrev OverflowChecks := ArithSite → Bool

namespace OverflowChecks

/-- a debug build (`overflow-checks = true`) -/
def debug : OverflowChecks := fun _ => true

/-- a release build (`overflow-checks = false`) -/
def release : OverflowChecks := fun _ => false

end OverflowChecks

def addU64 (ck : OverflowChecks) (site : ArithSite) (a b : UInt64) : Except Fault UInt64 :=
  if ck site ∧ 2 ^ 64 ≤ a.toNat + b.toNat then .error (.overflow site) else .ok (a + b)

def subU64 (ck : OverflowChecks) (site : ArithSite) (a b : UInt64) : Except Fault UInt64 :=
  if ck site ∧ a < b then .error (.overflow site) else .ok (a - b)

/-- `u64::saturating_add` -/
def saturatingAdd (a b : UInt64) : UInt64 := if 2 ^ 64 ≤ a.toNat + b.toNat then UInt64.ofNat (2 ^ 64 - 1) else a + b

/-- `u64::saturating_sub` -/
def saturatingSub (a b : UInt64) : UInt64 := if a < b then 0 else a - b

section Arith

variable {ck : OverflowChecks} {site : ArithSite} {a b c : UInt64}

/-- a returned sum is the wrapped one, whether it was checked or not -/
theorem addU64_eq (h : addU64 ck site a b = .ok c) : c = a + b := by
  unfold addU64 at h
  split_ifs at h
  exact (Except.ok.inj h).symm

theorem subU64_eq (h : subU64 ck site a b = .ok c) : c = a - b := by
  unfold subU64 at h
  split_ifs at h
  exact (Except.ok.inj h).symm

theorem addU64_of_lt (ck : OverflowChecks) (site : ArithSite) (h : a.toNat + b.toNat < 2 ^ 64) :
    addU64 ck site a b = .ok (a + b) := if_neg fun hc => absurd hc.2 (by omega)

theorem subU64_of_le (ck : OverflowChecks) (site : ArithSite) (h : b ≤ a) : subU64 ck site a b = .ok (a - b) :=
  if_neg fun hc => absurd hc.2 (UInt64.not_lt.2 h)

theorem toNat_add_of_lt (h : a.toNat + b.toNat < 2 ^ 64) : (a + b).toNat = a.toNat + b.toNat := by
  rw [UInt64.toNat_add, Nat.mod_eq_of_lt h]

theorem toNat_saturatingAdd : (saturatingAdd a b).toNat = min (a.toNat + b.toNat) (2 ^ 64 - 1) := by
  unfold saturatingAdd
  split_ifs with h
  · rw [UInt64.toNat_ofNat']; omega
  · rw [toNat_add_of_lt (by omega)]; omega

end Arith

end RustProof
