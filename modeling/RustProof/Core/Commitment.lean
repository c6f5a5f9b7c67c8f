/-
What the hashes of the system commit to.

The canonical bytes of a block, a transaction or a slash proof determine it up to signatures, at every nesting level, and
can be cut off the front of a longer buffer (`canonical_encoding_commits`); so a hash commits to everything but
signatures, as far as SHA-256 has no collision.

The state root is the Merkle root of the balances. Its leaves are hashed from 41 bytes and its inner nodes from 64, keys
do not repeat, and an odd level ends in a node hashed with itself; `rootInputs` lists the byte strings hashed on the way.
Two states with one root have the same balances, or there are two of these strings with one hash, or one of them hashes
to the zero root of the empty map (`state_root_binds_balances`). The tree argument is `Merkle.climb_eq_climb`; here the
loop of the source is shown to be a number of its rounds (`merkleLoop_eq_climb`).
-/
import RustProof.Lib.Merkle
import RustProof.Core.Sample

namespace RustProof

section General

variable [Crypto]

/-! ## Canonical bytes -/

/-- two different byte strings of the list have one hash -/
def Collides (hashed : List (List UInt8)) : Prop := ∃ x ∈ hashed, ∃ y ∈ hashed, x ≠ y ∧ sha256 x = sha256 y

theorem not_collides_iff {hashed : List (List UInt8)} :
    ¬ Collides hashed ↔ Set.InjOn sha256 {x | x ∈ hashed} := by
  unfold Collides Set.InjOn
  constructor
  · intro h x hx y hy heq
    by_contra hne
    exact h ⟨x, hx, y, hy, hne, heq⟩
  · rintro h ⟨x, hx, y, hy, hne, heq⟩
    exact hne (h hx hy heq)

theorem eq_or_collides {x y : List UInt8} (h : sha256 x = sha256 y) : x = y ∨ Collides [x, y] := by
  by_cases hxy : x = y
  · exact .inl hxy
  · exact .inr ⟨x, by simp, y, by simp, hxy, h⟩

theorem Block.unsigned_eq_or_collides {a b : Block} (ha : a.Sized) (hb : b.Sized) (h : a.hash = b.hash) :
    a.unsigned = b.unsigned ∨ Collides [a.toBytes, b.toBytes] := by
  rcases eq_or_collides h with heq | hcol
  · exact .inl (Block.toBytes_append_inj a b [] [] ha hb (by rw [heq])).1
  · exact .inr hcol

theorem Transaction.unsigned_eq_or_collides {a b : Transaction} (ha : a.Sized) (hb : b.Sized) (h : a.hash = b.hash) :
    a.unsigned = b.unsigned ∨ Collides [a.toBytes, b.toBytes] := by
  rcases eq_or_collides h with heq | hcol
  · exact .inl (Transaction.toBytes_append_inj a b [] [] ha hb (by rw [heq])).1
  · exact .inr hcol

/-- **The canonical encoding commits to everything but signatures.** The bytes of a block, a transaction or a slash proof
at the front of a buffer determine it up to signatures at every nesting level, and what follows it; two blocks or two
transactions with one hash agree up to signatures unless SHA-256 collides on their bytes. (`Sized`: no `Vec` of theirs is
longer than a `u64` can count.) -/
theorem canonical_encoding_commits :
    (∀ a b : Block, a.Sized → b.Sized → ∀ x y : List UInt8,
      a.toBytes ++ x = b.toBytes ++ y → x = y ∧ a.unsigned = b.unsigned) ∧
    (∀ a b : Transaction, a.Sized → b.Sized → ∀ x y : List UInt8,
      a.toBytes ++ x = b.toBytes ++ y → x = y ∧ a.unsigned = b.unsigned) ∧
    (∀ a b : SlashProof, a.Sized → b.Sized → ∀ x y : List UInt8,
      a.toBytes ++ x = b.toBytes ++ y → x = y ∧ a.unsigned = b.unsigned) ∧
    (∀ a b : Block, a.Sized → b.Sized → a.hash = b.hash →
      a.unsigned = b.unsigned ∨ Collides [a.toBytes, b.toBytes]) ∧
    ∀ a b : Transaction, a.Sized → b.Sized → a.hash = b.hash →
      a.unsigned = b.unsigned ∨ Collides [a.toBytes, b.toBytes] := by
  refine ⟨?_, ?_, ?_, fun a b ha hb h => Block.unsigned_eq_or_collides ha hb h,
    fun a b ha hb h => Transaction.unsigned_eq_or_collides ha hb h⟩
  · intro a b ha hb x y h
    exact (Block.toBytes_append_inj a b x y ha hb h).symm
  · intro a b ha hb x y h
    exact (Transaction.toBytes_append_inj a b x y ha hb h).symm
  · intro a b ha hb x y h
    exact (SlashProof.toBytes_append_inj a b x y ha hb h).symm

/-! ## The strings hashed for a state root -/

/-- `combined` in `compute_state_root` -/
def nodeBytes (left right : Hash) : List UInt8 := left.bytes ++ right.bytes

namespace State

/-- the strings hashed into the leaves, in key order -/
def leafInputs (s : State) : List (List UInt8) := s.balances.entries.map fun e => e.1.bytes ++ u64ToBe e.2

/-- the strings hashed by `while hashes.len() > 1` -/
def loopInputs : ℕ → List Hash → List (List UInt8)
  | 0, _ => []
  | fuel + 1, hashes =>
    if hashes.length > 1 then Merkle.pairUp nodeBytes hashes ++ loopInputs fuel (merkleLevel hashes) else []

/-- every string hashed by `compute_state_root` -/
def rootInputs (s : State) : List (List UInt8) :=
  s.leafInputs ++ loopInputs s.leafInputs.length (s.leafInputs.map sha256)

theorem computeStateRoot_eq (s : State) :
    s.computeStateRoot =
      (merkleLoop s.leafInputs.length (s.leafInputs.map sha256)).getLast?.getD (U8Array.zero 32) := by
  simp only [computeStateRoot, leafInputs, List.length_map, List.map_map, Function.comp_def]

/-! ## The loop is a number of rounds -/

theorem merkleLevel_eq (l : List Hash) : merkleLevel l = Merkle.level sha256 nodeBytes l := by
  induction l using Merkle.pairUp.induct with
  | case1 => rfl
  | case2 a => rfl
  | case3 a b rest ih =>
    rw [merkleLevel, ih]
    rfl

theorem merkleLoop_eq_climb (fuel : ℕ) (l : List Hash) :
    ∃ k, merkleLoop fuel l = Merkle.climb sha256 nodeBytes k l ∧
      loopInputs fuel l = Merkle.inputs sha256 nodeBytes k l := by
  induction fuel generalizing l with
  | zero => exact ⟨0, rfl, rfl⟩
  | succ fuel ih =>
    by_cases hl : l.length > 1
    · obtain ⟨k, hk, hin⟩ := ih (merkleLevel l)
      refine ⟨k + 1, ?_, ?_⟩
      · rw [merkleLoop, if_pos hl, hk, merkleLevel_eq, Merkle.climb_succ]
      · rw [loopInputs, if_pos hl, hin, merkleLevel_eq, Merkle.inputs]
    · exact ⟨0, by rw [merkleLoop, if_neg hl, Merkle.climb_zero], by rw [loopInputs, if_neg hl, Merkle.inputs]⟩

/-- the loop ends with a single node: every round about halves the level -/
theorem length_merkleLoop (fuel : ℕ) {l : List Hash} (hne : 0 < l.length) (hfuel : l.length ≤ fuel) :
    (merkleLoop fuel l).length = 1 := by
  induction fuel generalizing l with
  | zero => omega
  | succ fuel ih =>
    rw [merkleLoop]
    split_ifs with hl
    · have hlen : (merkleLevel l).length = (l.length + 1) / 2 := by rw [merkleLevel_eq, Merkle.length_level]
      exact ih (by omega) (by omega)
    · omega

/-- what the root is made of: nothing, or the one node at the top of the tree over the leaves -/
theorem computeStateRoot_climb (s : State) (hne : s.leafInputs ≠ []) :
    ∃ k, Merkle.climb sha256 nodeBytes k (s.leafInputs.map sha256) = [s.computeStateRoot] ∧
      s.rootInputs = s.leafInputs ++ Merkle.inputs sha256 nodeBytes k (s.leafInputs.map sha256) := by
  obtain ⟨k, hk, hin⟩ := merkleLoop_eq_climb s.leafInputs.length (s.leafInputs.map sha256)
  have hpos : 0 < (s.leafInputs.map sha256).length := by
    rw [List.length_map]
    exact List.length_pos_iff.2 hne
  obtain ⟨r, hr⟩ := List.length_eq_one_iff.1
    (length_merkleLoop s.leafInputs.length hpos (by rw [List.length_map]))
  refine ⟨k, ?_, by rw [rootInputs, hin]⟩
  rw [← hk, computeStateRoot_eq, hr]
  rfl

/-! ## The leaves determine the balances -/

omit [Crypto] in
theorem leafInput_injective :
    Function.Injective fun e : PublicKeyBytes × UInt64 => e.1.bytes ++ u64ToBe e.2 := by
  intro e e' heq
  obtain ⟨hk, hv⟩ := U8Array.append_inj heq
  exact Prod.ext hk (u64ToBe_append_inj (congrArg (· ++ ([] : List UInt8)) hv)).1

omit [Crypto] in
theorem leafInputs_injective {s t : State} (h : s.leafInputs = t.leafInputs) : s.balances = t.balances :=
  BTreeMap.ext_entries (List.map_injective_iff.2 leafInput_injective h)

omit [Crypto] in
theorem leafInputs_nodup (s : State) : s.leafInputs.Nodup := by
  have hentries : s.balances.entries.Nodup := by
    refine s.balances.sorted.imp fun {e e'} hlt heq => ?_
    rw [heq] at hlt
    exact lt_irrefl _ hlt
  exact hentries.map leafInput_injective

omit [Crypto] in
theorem length_of_mem_leafInputs {s : State} {x : List UInt8} (hx : x ∈ s.leafInputs) : x.length = publicKeySize + 8 := by
  obtain ⟨e, -, rfl⟩ := List.mem_map.1 hx
  rw [List.length_append, e.1.size_eq, length_u64ToBe]

omit [Crypto] in
theorem nodeBytes_injective (a b c d : Hash) (h : nodeBytes a b = nodeBytes c d) : a = c ∧ b = d := by
  obtain ⟨hac, hbd⟩ := U8Array.append_inj h
  exact ⟨hac, U8Array.ext_bytes hbd⟩

omit [Crypto] in
/-- a leaf is hashed from 41 bytes, an inner node from 64 -/
theorem leafInput_ne_nodeBytes {s : State} {x : List UInt8} (hx : x ∈ s.leafInputs) (a b : Hash) : x ≠ nodeBytes a b := by
  intro h
  have hlen := congrArg List.length h
  rw [length_of_mem_leafInputs hx, nodeBytes, List.length_append, a.size_eq, b.size_eq] at hlen
  exact absurd hlen (by decide)

/-! ## Equal roots -/

/-- the root of a map with an entry is a hash -/
theorem computeStateRoot_hashed {s : State} (hne : s.leafInputs ≠ []) :
    ∃ x ∈ s.rootInputs, sha256 x = s.computeStateRoot := by
  obtain ⟨k, hk, hin⟩ := s.computeStateRoot_climb hne
  have hmem : s.computeStateRoot ∈ Merkle.climb sha256 nodeBytes k (s.leafInputs.map sha256) := by
    rw [hk]
    exact List.mem_singleton_self _
  cases k with
  | zero =>
    obtain ⟨x, hx, heq⟩ := List.mem_map.1 hmem
    exact ⟨x, hin ▸ List.mem_append_left _ hx, heq⟩
  | succ k =>
    obtain ⟨a, b, hab, heq⟩ := Merkle.mem_climb_succ hmem
    exact ⟨nodeBytes a b, hin ▸ List.mem_append_right _ hab, heq⟩

theorem computeStateRoot_of_no_leaf {s : State} (h : s.leafInputs = []) : s.computeStateRoot = U8Array.zero 32 := by
  rw [computeStateRoot_eq, h]
  rfl

/-- the trees of two states with one root, the second at least as high as the first -/
theorem leafInputs_eq_of_climb {s t : State} {S : Set (List UInt8)} (hS : S.InjOn sha256) {k j : ℕ}
    (hs : ∀ x ∈ s.leafInputs ++ Merkle.inputs sha256 nodeBytes k (s.leafInputs.map sha256), x ∈ S)
    (ht : ∀ x ∈ t.leafInputs ++ Merkle.inputs sha256 nodeBytes (j + k) (t.leafInputs.map sha256), x ∈ S)
    (hne : s.leafInputs ≠ [])
    (h : Merkle.climb sha256 nodeBytes k (s.leafInputs.map sha256) =
      Merkle.climb sha256 nodeBytes (j + k) (t.leafInputs.map sha256)) : s.leafInputs = t.leafInputs := by
  have hleaves : ∀ x ∈ s.leafInputs, x ∈ S := fun x hx => hs x (List.mem_append_left _ hx)
  have hleaves' : ∀ x ∈ t.leafInputs, x ∈ S := fun x hx => ht x (List.mem_append_left _ hx)
  have hnodup : (s.leafInputs.map sha256).Nodup :=
    List.Nodup.map_on (fun x hx y hy => hS (hleaves x hx) (hleaves y hy)) s.leafInputs_nodup
  have hnodup' : (t.leafInputs.map sha256).Nodup :=
    List.Nodup.map_on (fun x hx y hy => hS (hleaves' x hx) (hleaves' y hy)) t.leafInputs_nodup
  have hbottom := Merkle.climb_eq_climb nodeBytes_injective hS (fun x hx => hs x (List.mem_append_right _ hx))
    (fun x hx => ht x (List.mem_append_right _ hx)) hnodup hnodup' h
  cases j with
  | zero => exact Merkle.map_injOn hS _ _ hleaves hleaves' hbottom
  | succ j =>
    -- the leaves of `s` would be inner nodes of `t`
    obtain ⟨x, hx⟩ := List.exists_mem_of_ne_nil _ hne
    have hmem : sha256 x ∈ Merkle.climb sha256 nodeBytes (j + 1) (t.leafInputs.map sha256) :=
      hbottom ▸ List.mem_map_of_mem hx
    obtain ⟨a, b, hab, heq⟩ := Merkle.mem_climb_succ hmem
    have habS : nodeBytes a b ∈ S := by
      refine ht _ (List.mem_append_right _ ?_)
      rw [Merkle.inputs_add]
      exact List.mem_append_left _ hab
    exact absurd (hS habS (hleaves x hx) heq).symm (leafInput_ne_nodeBytes hx a b)

/-- Without a collision and without a string that hashes to zero, the root determines the balances. -/
theorem balances_eq_of_computeStateRoot_eq {s t : State} (hcol : ¬ Collides (s.rootInputs ++ t.rootInputs))
    (hzero : ∀ x ∈ s.rootInputs ++ t.rootInputs, sha256 x ≠ U8Array.zero 32)
    (h : s.computeStateRoot = t.computeStateRoot) : s.balances = t.balances := by
  apply leafInputs_injective
  obtain ⟨S, hS, hmem, hmem'⟩ : ∃ S : Set (List UInt8), S.InjOn sha256 ∧ (∀ x ∈ s.rootInputs, x ∈ S) ∧
      ∀ x ∈ t.rootInputs, x ∈ S :=
    ⟨_, not_collides_iff.1 hcol, fun x hx => List.mem_append_left _ hx, fun x hx => List.mem_append_right _ hx⟩
  by_cases hs : s.leafInputs = []
  · by_cases ht : t.leafInputs = []
    · rw [hs, ht]
    · obtain ⟨x, hx, hroot⟩ := computeStateRoot_hashed ht
      rw [← h, computeStateRoot_of_no_leaf hs] at hroot
      exact absurd hroot (hzero x (List.mem_append_right _ hx))
  · by_cases ht : t.leafInputs = []
    · obtain ⟨x, hx, hroot⟩ := computeStateRoot_hashed hs
      rw [h, computeStateRoot_of_no_leaf ht] at hroot
      exact absurd hroot (hzero x (List.mem_append_left _ hx))
    · obtain ⟨k, hk, hin⟩ := s.computeStateRoot_climb hs
      obtain ⟨k', hk', hin'⟩ := t.computeStateRoot_climb ht
      rw [hin] at hmem
      rw [hin'] at hmem'
      have htop := hk.trans ((congrArg (fun r => [r]) h).trans hk'.symm)
      rcases Nat.le_total k k' with hle | hle
      · obtain ⟨j, rfl⟩ := Nat.exists_eq_add_of_le' hle
        exact leafInputs_eq_of_climb hS hmem hmem' hs htop
      · obtain ⟨j, rfl⟩ := Nat.exists_eq_add_of_le' hle
        exact (leafInputs_eq_of_climb hS hmem' hmem ht htop.symm).symm

/-- **The state root binds all balances.** Two states with one root have the same balances, or two different strings
hashed on the way to the roots have one hash, or one of these strings hashes to the zero root of the empty map. -/
theorem state_root_binds_balances {s₁ s₂ : State} (h : s₁.computeStateRoot = s₂.computeStateRoot) :
    s₁.balances = s₂.balances ∨ Collides (s₁.rootInputs ++ s₂.rootInputs) ∨
      ∃ x ∈ s₁.rootInputs ++ s₂.rootInputs, sha256 x = U8Array.zero 32 := by
  by_cases hcol : Collides (s₁.rootInputs ++ s₂.rootInputs)
  · exact .inr (.inl hcol)
  · by_cases hzero : ∃ x ∈ s₁.rootInputs ++ s₂.rootInputs, sha256 x = U8Array.zero 32
    · exact .inr (.inr hzero)
    · refine .inl (balances_eq_of_computeStateRoot_eq hcol (fun x hx hx0 => hzero ⟨x, hx, hx0⟩) h)

end State

end General

section Witness

open Sample

theorem block₂_sized : block₂.Sized := ⟨⟨by decide, trivial, trivial⟩, by decide, trivial⟩

/-- a block and the same block without its signature: same bytes, so the same block up to signatures -/
theorem canonical_encoding_commits_block₂ :
    ({ block₂ with signature := none } : Block).Sized ∧
      block₂.toBytes ++ [7] = ({ block₂ with signature := none } : Block).toBytes ++ [7] ∧
      block₂.unsigned = ({ block₂ with signature := none } : Block).unsigned :=
  have hsized : ({ block₂ with signature := none } : Block).Sized := block₂_sized
  ⟨hsized, rfl, (canonical_encoding_commits.1 block₂ _ block₂_sized hsized [7] [7] rfl).2⟩

/-- three accounts, so that the last leaf is hashed with itself, and two states that differ in a nonce only -/
def threeAccounts : State :=
  { State.new with balances := ((BTreeMap.empty.insert (key 2) 100).insert (key 3) 7).insert (key 5) 1 }

def threeAccountsLater : State := { threeAccounts with nonces := BTreeMap.empty.insert (key 2) 1 }

theorem state_root_binds_balances_of_threeAccounts :
    threeAccounts.computeStateRoot = threeAccountsLater.computeStateRoot ∧
      (threeAccounts.balances = threeAccountsLater.balances ∨
        Collides (threeAccounts.rootInputs ++ threeAccountsLater.rootInputs) ∨
        ∃ x ∈ threeAccounts.rootInputs ++ threeAccountsLater.rootInputs, sha256 x = U8Array.zero 32) :=
  ⟨rfl, State.state_root_binds_balances rfl⟩

end Witness

end RustProof
