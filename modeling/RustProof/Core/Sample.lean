/-
A concrete instance of the cryptography, small enough to evaluate, on which the premises of the general results are
discharged: keys are their own 33 bytes, the digest is a polynomial hash modulo 2^256 standing in for SHA-256, and a
signature is the pair of digests of key and message in both orders, so that it verifies under the one key and for the one
message it was made for.
-/
import RustProof.Core.Chain

namespace RustProof.Sample

/-- 32 big-endian bytes -/
def digestBytes (n : ℕ) : Hash := ⟨(List.range 32).map fun i => UInt8.ofNat (n / 256 ^ (31 - i)), by simp⟩

def digest (bs : List UInt8) : Hash :=
  digestBytes (bs.foldl (fun acc b => (acc * 257 + b.toNat + 1) % 2 ^ 256) 7)

def sign (k : PublicKeyBytes) (msg : List UInt8) : U8Array 64 :=
  ⟨(digest (k.bytes ++ msg)).bytes ++ (digest (msg ++ k.bytes)).bytes, by simp [U8Array.size_eq]⟩

/-- the key whose bytes are all `x` -/
def key (x : UInt8) : PublicKeyBytes := ⟨List.replicate publicKeySize x, List.length_replicate⟩

scoped instance crypto : Crypto where
  VerifyingKey := PublicKeyBytes
  Signature := U8Array 64
  keyDecEq := inferInstance
  verifyingKeyToBytes := id
  verifyingKeyFromBytes := some
  signatureToBytes := id
  signatureFromBytes := some
  verify k msg s := decide (s = sign k msg)
  sha256 := digest
  genesisVerifyingKey := key 1
  key_round_trip _ := rfl
  signature_round_trip _ := rfl

def signBlock (b : Block) : Block := { b with signature := some (sign b.validator b.hash.bytes) }

def signTx (tx : Transaction) : Transaction := { tx with signature := some (sign tx.sender tx.hash.bytes) }

/-- `Transaction` number `seq` of `sender`, signed -/
def tx (sender : PublicKeyBytes) (data : TransactionData) (seq : UInt64) : Transaction :=
  signTx ⟨sender, data, seq, 0, none⟩

/-- the signed child of `parent` at `slot` with the given contents, forged by `validator` -/
def child (parent : Block) (slot : UInt64) (validator : PublicKeyBytes) (txs : List Transaction)
    (proofs : List SlashProof) (root : Hash) : Block :=
  signBlock ⟨parent.height + 1, slot, parent.hash, validator, txs, none, proofs, root⟩

/-! ## A chain that exercises every kind of operation

A self-transfer, a stake, a slash sent as a transaction and the same slash carried by the block, an unstake, then a
transfer of nothing in a second block. -/

def genesis : Block := ⟨0, 0, U8Array.zero 32, key 1, [], none, [], U8Array.zero 32⟩

def start : State :=
  { State.new with
    balances := BTreeMap.empty.insert (key 2) 100
    stakes := BTreeMap.empty.insert (key 3) 10 }

/-- `key 3` signed two blocks of slot 5 -/
def proof : SlashProof :=
  ⟨key 3, child genesis 5 (key 3) [] [] (U8Array.zero 32), child genesis 5 (key 3) [] [] (digestBytes 1)⟩

def txs₁ : List Transaction :=
  [tx (key 2) (.transfer (key 2) 30) 0, tx (key 2) (.stake 20) 1, tx (key 2) (.slash proof) 2,
    tx (key 2) (.unstake 5) 3]

def txs₂ : List Transaction := [tx (key 2) (.transfer (key 4) 0) 4]

/-- the state after transactions, as their effects give it -/
def after (s : State) (txs : List Transaction) (slot : UInt64) : State :=
  txs.foldl (fun s t => s.opEffect (.tx t slot)) s

def middle : State := after start txs₁ 1

def final : State := after middle txs₂ 2

def block₁ : Block := child genesis 1 (key 3) txs₁ [proof] middle.computeStateRoot

def block₂ : Block := child block₁ 2 (key 2) txs₂ [] final.computeStateRoot

theorem block₁_accepted : validateAndApplyBlock .release genesis start block₁ = .ok (.ok ⟨middle⟩) := by
  decide +kernel

theorem chain_accepted : replay .release genesis start [block₁, block₂] = .ok (.ok final) := by decide +kernel

end RustProof.Sample
