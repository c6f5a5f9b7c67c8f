/-
Which transactions a mempool holds (`rp-node/src/mempool.rs`).

`Mempool.submit` is `add_transaction` with the mempool it leaves behind, also where it refuses. A mempool that started empty is
a greedy collector of the best (`Best`, `Keeps`): room takes everything, a full one exchanges the cheapest it holds for a
dearer one only.

Results:
- `mempool_keeps_best_paying`: after any calls the fees held are the highest fees of the distinct transactions
  submitted, as many as fit, in whatever order they came and however often they came back.
-/
import RustProof.Lib.Best
import RustProof.Node.Blockchain

namespace RustProof

/-- the fee in a transaction's order -/
def feeOf (k : UInt64ᵒᵈ ×ₗ Hash) : UInt64 := OrderDual.ofDual (ofLex k).1

theorem feeOf_antitone {k k' : UInt64ᵒᵈ ×ₗ Hash} (h : k ≤ k') : feeOf k' ≤ feeOf k := Prod.Lex.monotone_fst k k' h

section Pool

variable [Crypto]

@[simp] theorem feeOf_order (tx : Transaction) : feeOf tx.order = tx.fee := rfl

namespace Mempool

def getPendingTransactions (m : Mempool) (count : ℕ) : List Transaction :=
  (m.transactions.entries.map fun e => e.2).take count

/-- the mempool of capacity `n` after these calls -/
def submitAll (n : ℕ) (txs : List Transaction) : Mempool := txs.foldl (fun m tx => (m.submit tx).1) (new n)

/-- the `n` highest fees among the distinct transactions of a list -/
def topFees (n : ℕ) (txs : List Transaction) : List UInt64 :=
  (Multiset.sort ((txs.map Transaction.order).toFinset.val.map feeOf) (· ≥ ·)).take n

/-- **A call that does not add the transaction changes nothing.** -/
theorem submit_eq_self {m : Mempool} {tx : Transaction} (h : (m.submit tx).2 ≠ .ok true) : (m.submit tx).1 = m := by
  revert h
  unfold submit
  split_ifs
  · intro _; rfl
  · intro h; exact absurd rfl h
  · cases m.transactions.entries.getLast? with
    | none => intro _; rfl
    | some e =>
      simp only
      split_ifs
      · intro h; exact absurd rfl h
      · intro _; rfl

/-! ## The invariant -/

/-- `m` started empty with capacity `n` and was given `seen` -/
structure Keeps (n : ℕ) (seen : Finset (UInt64ᵒᵈ ×ₗ Hash)) (m : Mempool) : Prop where
  size : m.maxSize = n
  keyed : ∀ k tx, m.transactions.get? k = some tx → k = tx.order
  best : Best feeOf n seen m.transactions.keys

theorem Keeps.new (n : ℕ) : Keeps n ∅ (new n) := by
  refine ⟨rfl, ?_, Best.empty feeOf n⟩
  intro k tx h
  cases h

theorem keyed_insert {l : BTreeMap (UInt64ᵒᵈ ×ₗ Hash) Transaction} (h : ∀ k t, l.get? k = some t → k = t.order)
    (tx : Transaction) : ∀ k t, (l.insert tx.order tx).get? k = some t → k = t.order := by
  intro k t hk
  rw [BTreeMap.get?_insert] at hk
  split_ifs at hk with heq
  · cases hk
    exact heq.symm
  · exact h k t hk

theorem Keeps.submit {n : ℕ} {seen : Finset (UInt64ᵒᵈ ×ₗ Hash)} {m : Mempool} (h : Keeps n seen m) (tx : Transaction) :
    Keeps n (insert tx.order seen) (m.submit tx).1 := by
  have hmem : tx.order ∈ m.transactions.keys ↔ m.transactions.contains tx.order = true := by
    rw [BTreeMap.mem_keys, BTreeMap.contains_iff]
  unfold Mempool.submit
  split_ifs with hdup hroom
  · exact ⟨h.size, h.keyed, h.best.again (hmem.2 hdup)⟩
  · refine ⟨h.size, keyed_insert h.keyed tx, ?_⟩
    rw [BTreeMap.keys_insert]
    refine h.best.insert (fun hc => hdup (hmem.1 hc)) ?_
    rw [BTreeMap.card_keys, ← h.size]
    exact hroom
  · -- no room: as many are held as fit
    have hfull : m.transactions.keys.card = n := by
      have hle := h.best.card
      rw [BTreeMap.card_keys] at hle ⊢
      have hsize := h.size
      omega
    cases hlast : m.transactions.entries.getLast? with
    | none =>
      have hnil := List.getLast?_eq_none_iff.1 hlast
      refine ⟨h.size, h.keyed, h.best.refuse hfull fun y hy => ?_⟩
      simp [BTreeMap.keys, hnil] at hy
    | some e =>
      obtain ⟨k, lowest⟩ := e
      have hget := (BTreeMap.mem_entries_iff m.transactions k lowest).1 (List.mem_of_getLast? hlast)
      obtain rfl := h.keyed k lowest hget
      have hleast : ∀ y ∈ m.transactions.keys, lowest.fee ≤ feeOf y := fun y hy =>
        feeOf_antitone (BTreeMap.le_getLast hlast y hy)
      simp only
      split_ifs with hfee
      · refine ⟨h.size, keyed_insert ?_ tx, ?_⟩
        · intro k t hk
          rw [BTreeMap.get?_remove] at hk
          split_ifs at hk
          exact h.keyed k t hk
        · rw [BTreeMap.keys_insert, BTreeMap.keys_remove]
          exact h.best.replace hfull (fun hc => hdup (hmem.1 hc)) (BTreeMap.mem_keys.2 ⟨lowest, hget⟩) hleast hfee
      · refine ⟨h.size, h.keyed, h.best.refuse hfull fun y hy => ?_⟩
        exact (UInt64.not_lt.1 hfee).trans (hleast y hy)

theorem Keeps.foldl {n : ℕ} (txs : List Transaction) {seen : Finset (UInt64ᵒᵈ ×ₗ Hash)} {m : Mempool}
    (h : Keeps n seen m) :
    Keeps n (seen ∪ (txs.map Transaction.order).toFinset) (txs.foldl (fun m tx => (m.submit tx).1) m) := by
  induction txs generalizing seen m with
  | nil => simpa using h
  | cons tx txs ih =>
    have hstep := ih (h.submit tx)
    rw [Finset.insert_union, ← Finset.union_insert] at hstep
    simpa using hstep

theorem submitAll_keeps (n : ℕ) (txs : List Transaction) :
    Keeps n (txs.map Transaction.order).toFinset (submitAll n txs) := by
  have h := (Keeps.new n).foldl txs
  rwa [Finset.empty_union] at h

/-! ## What it holds -/

/-- the held transactions are iterated from the highest fee down -/
theorem Keeps.fees_eq {n : ℕ} {seen : Finset (UInt64ᵒᵈ ×ₗ Hash)} {m : Mempool} (h : Keeps n seen m) :
    (m.getPendingTransactions m.transactions.len).map Transaction.fee =
      Multiset.sort (m.transactions.keys.val.map feeOf) (· ≥ ·) := by
  have hkeys : m.transactions.keys.val = (m.transactions.entries.map Prod.fst : List _) := by
    rw [BTreeMap.keys, List.toFinset_val, m.transactions.keys_nodup.dedup]
  have hfees : (m.getPendingTransactions m.transactions.len).map Transaction.fee =
      (m.transactions.entries.map Prod.fst).map feeOf := by
    rw [getPendingTransactions, List.take_of_length_le (by rw [List.length_map]; exact le_rfl), List.map_map,
      List.map_map]
    refine List.map_congr_left fun e he => ?_
    rw [Function.comp_apply, Function.comp_apply, h.keyed e.1 e.2 ((BTreeMap.mem_entries_iff _ _ _).1 he), feeOf_order]
  refine List.Perm.eq_of_pairwise' (r := (· ≥ ·)) ?_ (Multiset.pairwise_sort _ _) ?_
  · rw [hfees, List.pairwise_map, List.pairwise_map]
    exact m.transactions.sorted.imp fun hlt => feeOf_antitone hlt.le
  · rw [← Multiset.coe_eq_coe, Multiset.sort_eq, hfees, hkeys, Multiset.map_coe]

/-- **The mempool keeps the best-paying transactions, in whatever order they come.** -/
theorem mempool_keeps_best_paying (n : ℕ) (txs : List Transaction) :
    (submitAll n txs).transactions.len ≤ n ∧
    ((submitAll n txs).getPendingTransactions (submitAll n txs).transactions.len).Pairwise
      (fun a b => a.order ≠ b.order) ∧
    ((submitAll n txs).getPendingTransactions (submitAll n txs).transactions.len).map Transaction.fee = topFees n txs ∧
    (∀ txs' : List Transaction, (∀ tx, tx ∈ txs' ↔ tx ∈ txs) →
      ((submitAll n txs').getPendingTransactions (submitAll n txs').transactions.len).map Transaction.fee =
        ((submitAll n txs).getPendingTransactions (submitAll n txs).transactions.len).map Transaction.fee) ∧
    ∀ (m : Mempool) (tx : Transaction), (m.submit tx).2 ≠ .ok true → (m.submit tx).1 = m := by
  have hkeeps := submitAll_keeps n txs
  have hfees : ∀ txs' : List Transaction,
      ((submitAll n txs').getPendingTransactions (submitAll n txs').transactions.len).map Transaction.fee =
        topFees n txs' := by
    intro txs'
    have hk := submitAll_keeps n txs'
    rw [hk.fees_eq, hk.best.ranks, topFees]
  refine ⟨?_, ?_, hfees txs, ?_, fun m tx => submit_eq_self⟩
  · rw [← BTreeMap.card_keys]
    exact hkeeps.best.card
  · rw [getPendingTransactions, List.take_of_length_le (by rw [List.length_map]; exact le_rfl), List.pairwise_map]
    refine (submitAll n txs).transactions.sorted.imp_of_mem ?_
    intro a b ha hb hlt
    rw [← hkeeps.keyed a.1 a.2 ((BTreeMap.mem_entries_iff _ _ _).1 ha),
      ← hkeeps.keyed b.1 b.2 ((BTreeMap.mem_entries_iff _ _ _).1 hb)]
    exact hlt.ne
  · intro txs' hsame
    have hset : (txs'.map Transaction.order).toFinset = (txs.map Transaction.order).toFinset := by
      ext k
      simp only [List.mem_toFinset, List.mem_map, hsame]
    rw [hfees, hfees, topFees, topFees, hset]

end Mempool

end Pool

end RustProof
