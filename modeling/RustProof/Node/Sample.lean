/-
Small concrete runs of the engine, for the premises and the counterexamples of the general results: blocks without
transactions on top of the genesis block, announced by one peer.
-/
import RustProof.Node.Rules
import RustProof.Core.Sample

namespace RustProof

section General

variable [Crypto]

/-- the input that announces a block -/
def announce (peer : PeerId) (b : Block) : NodeInput :=
  .frameReceived peer (NetworkMessage.announceRequest (.block b)).toBytes

theorem fromBytes_announce {b : Block} (hb : b.Sized) :
    NetworkMessage.fromBytes (NetworkMessage.announceRequest (.block b)).toBytes = .ok (.announceRequest (.block b)) := by
  have h := fromBytes_toBytes_message (m := .announceRequest (.block b)) hb []
  rwa [List.append_nil] at h

theorem announce_blocks (peer : PeerId) {b : Block} (hb : b.Sized) : (announce peer b).blocks = [b] := by
  simp only [announce, NodeInput.blocks, fromBytes_announce hb]
  rfl

omit [Crypto] in
/-- a computation that is known to return -/
theorem eq_ok_get {α : Type} {x : Except Fault α} (h : x.toOption.isSome = true) : x = .ok (x.toOption.get h) := by
  cases x with
  | error f => exact nomatch h
  | ok a => rfl

omit [Crypto] in
/-- ... and that returns two values -/
theorem eq_ok_pair {α β : Type} {x : Except Fault (α × β)} (h : x.toOption.isSome = true) :
    x = .ok ((x.toOption.get h).1, (x.toOption.get h).2) := eq_ok_get h

end General

namespace Sample

def peer : PeerId := U8Array.zero 32

def otherPeer : PeerId := ⟨List.replicate 32 1, rfl⟩

/-- an empty block on `parent` -/
def emptyChild (parent : Block) (slot : UInt64) (validator : UInt8) : Block :=
  child parent slot (key validator) [] [] (U8Array.zero 32)

theorem emptyChild_sized (parent : Block) (slot : UInt64) (validator : UInt8) :
    (emptyChild parent slot validator).Sized := by
  have hnil : (0 : ℕ) < 2 ^ 64 := by decide
  exact ⟨⟨hnil, trivial⟩, hnil, trivial⟩

/-- a main chain `m₁ … m₃` and a branch `f₁, f₂` off the genesis block -/
def m₁ : Block := emptyChild genesis 1 3
def m₂ : Block := emptyChild m₁ 2 3
def m₃ : Block := emptyChild m₂ 3 3
def f₁ : Block := emptyChild genesis 2 4
def f₂ : Block := emptyChild f₁ 3 4

/-- a rival of `m₂` that wins by its slot -/
def n₂ : Block := emptyChild m₁ 3 4

scoped instance : DecidableEq Signature := inferInstanceAs (DecidableEq (U8Array 64))

/-- equality of blocks without transactions and proofs, field by field -/
def sameEmpty (a b : Block) : Bool :=
  a.transactions.isEmpty && b.transactions.isEmpty && a.slashProofs.isEmpty && b.slashProofs.isEmpty &&
    decide (a.height = b.height ∧ a.slot = b.slot ∧ a.previousHash = b.previousHash ∧ a.validator = b.validator ∧
      a.signature = b.signature ∧ a.stateRoot = b.stateRoot)

theorem eq_some_of_sameEmpty {o : Option Block} {b : Block} (h : (o.any fun a => sameEmpty a b) = true) : o = some b := by
  cases o with
  | none => cases h
  | some a =>
    obtain ⟨height, slot, previousHash, validator, transactions, signature, slashProofs, stateRoot⟩ := a
    obtain ⟨height', slot', previousHash', validator', transactions', signature', slashProofs', stateRoot'⟩ := b
    simp only [Option.any_some, sameEmpty, Bool.and_eq_true, List.isEmpty_iff, decide_eq_true_eq] at h
    obtain ⟨⟨⟨⟨rfl, rfl⟩, rfl⟩, rfl⟩, rfl, rfl, rfl, rfl, rfl, rfl⟩ := h
    rfl

end Sample

end RustProof
