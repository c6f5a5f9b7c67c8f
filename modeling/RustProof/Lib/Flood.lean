/-
Flooding a network with items.

A node takes an item or drops it, as its own state says. What it takes it passes on to its neighbours, except to the one it
has it from. Items are submitted at any node at any time, and the messages arrive in any order. A node may be reset at any
time: it goes on with another state, and may take again what it has taken before. The rounds of a node are counted by its
resets.

`Lawful` is all that is asked of the nodes: within a round, what a node has taken it drops from then on, and what it drops
once it drops for good.

Results:
- `Reached.crossings`, `Reached.bounded`: an item crosses a link in one direction at most once in each round of the sender,
  so there are at most as many messages as rounds of directed links times submissions;
- `Reached.spread`: when nothing is under way, every neighbour of a node drops what the node has taken, if the neighbour
  was never reset;
- `Reached.given`: a node that was never reset drops what was submitted to it;
- `Reached.held`: what it holds it has taken;
- `Reached.unreset`: what taking keeps holds of it.
-/
import Mathlib.Algebra.BigOperators.Group.Finset.Basic
import Mathlib.Algebra.BigOperators.Ring.List
import Mathlib.Algebra.Ring.Nat
import Mathlib.Data.Fintype.Basic
import Mathlib.Data.List.Perm.Subperm
import RustProof.Lib.Machine

namespace RustProof

section Update

variable {ι α β : Type} [DecidableEq ι] {i : ι} {a : α} {b : β}

theorem forall_update {P : ι → α → Prop} {f : ι → α} (h : ∀ j, P j (f j)) (ha : P i a) (j : ι) :
    P j (Function.update f i a j) :=
  (Function.forall_update_iff f P).2 ⟨ha, fun j _ => h j⟩ j

theorem forall_update₂ {R : α → β → Prop} {f : ι → α} {g : ι → β} (h : ∀ j, R (f j) (g j)) (hab : R a b) (j : ι) :
    R (Function.update f i a j) (Function.update g i b j) := by
  by_cases hj : j = i
  · subst hj
    rw [Function.update_self, Function.update_self]
    exact hab
  · rw [Function.update_of_ne hj, Function.update_of_ne hj]
    exact h j

end Update

structure Flood (ι S X : Type) where
  neighbours : ι → List ι
  /-- the state once the item is taken, if it is -/
  take : S → X → Option S

namespace Flood

variable {ι S X : Type}

/-- for states that meet `I` -/
structure Lawful (F : Flood ι S X) (I : S → Prop) : Prop where
  nodup : ∀ i, (F.neighbours i).Nodup
  keeps : ∀ s x s', I s → F.take s x = some s' → I s'
  taken : ∀ s x s', I s → F.take s x = some s' → F.take s' x = none
  dropped : ∀ s x y s', I s → F.take s x = none → F.take s y = some s' → F.take s' x = none

/-- a node takes an item in one of its rounds -/
structure Taking (ι X : Type) where
  node : ι
  round : ℕ
  item : X

/-- the sender tells the receiver what it has taken -/
structure Msg (ι X : Type) where
  taking : Taking ι X
  receiver : ι

/-- the nodes, the messages and what has happened -/
structure Net (ι S X : Type) where
  state : ι → S
  resets : ι → ℕ
  /-- under way -/
  flying : List (Msg ι X)
  /-- arrived -/
  crossed : List (Msg ι X)
  submitted : List (ι × X)
  taken : List (Taking ι X)

def start (init : ι → S) : Net ι S X := ⟨init, fun _ => 0, [], [], [], []⟩

inductive Move (ι S X : Type) where
  | submit (i : ι) (x : X)
  /-- the message at this position arrives -/
  | deliver (n : ℕ)
  | reset (i : ι) (s : S)

variable [DecidableEq ι]

/-- the item comes to node `i`, which passes it on to the nodes `onward` if it takes it -/
def offer (F : Flood ι S X) (σ : Net ι S X) (i : ι) (x : X) (onward : List ι) : Net ι S X :=
  match F.take (σ.state i) x with
  | some s =>
    { σ with
      state := Function.update σ.state i s
      flying := σ.flying ++ onward.map fun j => ⟨⟨i, σ.resets i, x⟩, j⟩
      taken := σ.taken ++ [⟨i, σ.resets i, x⟩] }
  | none => σ

def exec (F : Flood ι S X) (σ : Net ι S X) : Move ι S X → Option (Net ι S X)
  | .submit i x => some (F.offer { σ with submitted := σ.submitted ++ [(i, x)] } i x (F.neighbours i))
  | .deliver n =>
    match σ.flying[n]? with
    | some m =>
      some (F.offer { σ with flying := σ.flying.eraseIdx n, crossed := σ.crossed ++ [m] } m.receiver m.taking.item
        ((F.neighbours m.receiver).filter fun j => decide (j ≠ m.taking.node)))
    | none => none
  | .reset i s =>
    some { σ with state := Function.update σ.state i s, resets := Function.update σ.resets i (σ.resets i + 1) }

def machine (F : Flood ι S X) (init : ι → S) : Machine (Net ι S X) (Move ι S X) where
  init σ := σ = start init
  exec := F.exec

/-- a reset gives a node a state that meets `I` -/
def Fresh (I : S → Prop) (_ : Net ι S X) : Move ι S X → Prop
  | .reset _ s => I s
  | _ => True

/-! ## The invariant -/

/-- with the item, if there is one, that has just come to a node and that the node has not looked at -/
structure Inv (F : Flood ι S X) (I : S → Prop) (arriving : Option (ι × X)) (σ : Net ι S X) : Prop where
  states : ∀ i, I (σ.state i)
  past : ∀ p ∈ σ.taken, p.round ≤ σ.resets p.node
  settled : ∀ p ∈ σ.taken, p.round = σ.resets p.node → F.take (σ.state p.node) p.item = none
  given : ∀ p ∈ σ.submitted, σ.resets p.1 = 0 → F.take (σ.state p.1) p.2 = none ∨ arriving = some p
  origin : ∀ p ∈ σ.taken, ∃ i, (i, p.item) ∈ σ.submitted
  sender : ∀ m ∈ σ.crossed ++ σ.flying, m.taking ∈ σ.taken ∧ m.receiver ∈ F.neighbours m.taking.node
  once : (σ.crossed ++ σ.flying).Nodup
  spread : ∀ p ∈ σ.taken, ∀ j ∈ F.neighbours p.node, σ.resets j = 0 →
    ⟨p, j⟩ ∈ σ.flying ∨ F.take (σ.state j) p.item = none ∨ arriving = some (j, p.item)

variable {F : Flood ι S X} {I : S → Prop} {σ σ' : Net ι S X} {i : ι} {x : X}

omit [DecidableEq ι] in
theorem inv_start {init : ι → S} (h : ∀ i, I (init i)) : F.Inv I none (start init) := by
  refine ⟨h, ?_, ?_, ?_, ?_, ?_, List.nodup_nil, ?_⟩
  all_goals intro p hp
  all_goals exact absurd hp List.not_mem_nil

/-- what a node drops it drops after another node, or it, has taken something -/
theorem dropped_update (hF : F.Lawful I) {state : ι → S} (hI : ∀ i, I (state i)) {s : S} {y : X} {j : ι}
    (htake : F.take (state i) x = some s) (hdrop : F.take (state j) y = none) :
    F.take (Function.update state i s j) y = none := by
  by_cases hj : j = i
  · subst hj
    rw [Function.update_self]
    exact hF.dropped _ y x s (hI j) hdrop htake
  · rw [Function.update_of_ne hj]
    exact hdrop

omit [DecidableEq ι] in
/-- the node drops the item -/
theorem Inv.drops (h : F.Inv I (some (i, x)) σ) (htake : F.take (σ.state i) x = none) : F.Inv I none σ := by
  refine ⟨h.states, h.past, h.settled, ?_, h.origin, h.sender, h.once, ?_⟩
  · intro p hp hzero
    rcases h.given p hp hzero with hdrop | heq
    · exact .inl hdrop
    · cases heq
      exact .inl htake
  · intro p hp j hj hzero
    rcases h.spread p hp j hj hzero with hfly | hdrop | heq
    · exact .inl hfly
    · exact .inr (.inl hdrop)
    · obtain ⟨rfl, rfl⟩ := Prod.mk.inj (Option.some.inj heq)
      exact .inr (.inl htake)

/-- the node takes the item and passes it on to all neighbours that may still want it -/
theorem Inv.takes (hF : F.Lawful I) (h : F.Inv I (some (i, x)) σ) {onward : List ι} (hx : ∃ k, (k, x) ∈ σ.submitted)
    (hsub : onward.Sublist (F.neighbours i))
    (hall : ∀ j ∈ F.neighbours i, σ.resets j = 0 → j ∈ onward ∨ F.take (σ.state j) x = none)
    {s : S} (htake : F.take (σ.state i) x = some s) :
    F.Inv I none
      { σ with
        state := Function.update σ.state i s
        flying := σ.flying ++ onward.map fun j => ⟨⟨i, σ.resets i, x⟩, j⟩
        taken := σ.taken ++ [⟨i, σ.resets i, x⟩] } := by
  have hdropped : ∀ {j : ι} {y : X}, F.take (σ.state j) y = none →
      F.take (Function.update σ.state i s j) y = none := fun hdrop => dropped_update hF h.states htake hdrop
  have hself : F.take (Function.update σ.state i s i) x = none := by
    rw [Function.update_self]
    exact hF.taken _ x s (h.states i) htake
  have hnew : (⟨i, σ.resets i, x⟩ : Taking ι X) ∉ σ.taken := by
    intro hmem
    rw [h.settled _ hmem rfl] at htake
    cases htake
  refine ⟨?_, ?_, ?_, ?_, ?_, ?_, ?_, ?_⟩
  · exact forall_update (P := fun _ s => I s) h.states (hF.keeps _ x s (h.states i) htake)
  · intro p hp
    rcases List.mem_append.1 hp with hp | hp
    · exact h.past p hp
    · rw [List.mem_singleton.1 hp]
  · intro p hp hround
    rcases List.mem_append.1 hp with hp | hp
    · exact hdropped (h.settled p hp hround)
    · rw [List.mem_singleton.1 hp]
      exact hself
  · intro p hp hzero
    rcases h.given p hp hzero with hdrop | heq
    · exact .inl (hdropped hdrop)
    · cases heq
      exact .inl hself
  · intro p hp
    rcases List.mem_append.1 hp with hp | hp
    · exact h.origin p hp
    · rw [List.mem_singleton.1 hp]
      exact hx
  · intro m hm
    rw [← List.append_assoc] at hm
    rcases List.mem_append.1 hm with hm | hm
    · exact ⟨List.mem_append_left _ (h.sender m hm).1, (h.sender m hm).2⟩
    · obtain ⟨j, hj, rfl⟩ := List.mem_map.1 hm
      exact ⟨List.mem_append_right _ (List.mem_singleton.2 rfl), hsub.subset hj⟩
  · -- the node has not taken the item in this round before, so none of these messages was sent
    rw [← List.append_assoc]
    refine List.nodup_append.2 ⟨h.once, ?_, ?_⟩
    · refine ((hF.nodup i).sublist hsub).map ?_
      intro j j' heq
      exact (Msg.mk.inj heq).2
    · intro m hm m' hm' heq
      obtain ⟨j, _, rfl⟩ := List.mem_map.1 hm'
      subst heq
      exact hnew (h.sender _ hm).1
  · intro p hp j hj hzero
    rcases List.mem_append.1 hp with hp | hp
    · rcases h.spread p hp j hj hzero with hfly | hdrop | heq
      · exact .inl (List.mem_append_left _ hfly)
      · exact .inr (.inl (hdropped hdrop))
      · obtain ⟨rfl, rfl⟩ := Prod.mk.inj (Option.some.inj heq)
        exact .inr (.inl hself)
    · obtain rfl := List.mem_singleton.1 hp
      rcases hall j hj hzero with hmem | hdrop
      · exact .inl (List.mem_append_right _ (List.mem_map.2 ⟨j, hmem, rfl⟩))
      · exact .inr (.inl (hdropped hdrop))

theorem Inv.offer (hF : F.Lawful I) (h : F.Inv I (some (i, x)) σ) {onward : List ι} (hx : ∃ k, (k, x) ∈ σ.submitted)
    (hsub : onward.Sublist (F.neighbours i))
    (hall : ∀ j ∈ F.neighbours i, σ.resets j = 0 → j ∈ onward ∨ F.take (σ.state j) x = none) :
    F.Inv I none (F.offer σ i x onward) := by
  unfold Flood.offer
  cases htake : F.take (σ.state i) x with
  | none => exact h.drops htake
  | some s => exact h.takes hF hx hsub hall htake

omit [DecidableEq ι] in
theorem Inv.submit (h : F.Inv I none σ) (i : ι) (x : X) :
    F.Inv I (some (i, x)) { σ with submitted := σ.submitted ++ [(i, x)] } := by
  refine ⟨h.states, h.past, h.settled, ?_, ?_, h.sender, h.once, ?_⟩
  · intro p hp hzero
    rcases List.mem_append.1 hp with hp | hp
    · exact .inl ((h.given p hp hzero).resolve_right (by simp))
    · rw [List.mem_singleton.1 hp]
      exact .inr rfl
  · intro p hp
    obtain ⟨k, hk⟩ := h.origin p hp
    exact ⟨k, List.mem_append_left _ hk⟩
  · intro p hp j hj hzero
    rcases h.spread p hp j hj hzero with hfly | hdrop | heq
    · exact .inl hfly
    · exact .inr (.inl hdrop)
    · cases heq

omit [DecidableEq ι] in
theorem perm_deliver {n : ℕ} {m : Msg ι X} (h : σ.flying[n]? = some m) :
    (σ.crossed ++ [m] ++ σ.flying.eraseIdx n).Perm (σ.crossed ++ σ.flying) := by
  obtain ⟨hn, rfl⟩ := List.getElem?_eq_some_iff.1 h
  rw [List.append_assoc]
  exact (List.getElem_cons_eraseIdx_perm hn).append_left σ.crossed

omit [DecidableEq ι] in
theorem Inv.deliver (h : F.Inv I none σ) {n : ℕ} {m : Msg ι X} (hm : σ.flying[n]? = some m) :
    F.Inv I (some (m.receiver, m.taking.item))
      { σ with flying := σ.flying.eraseIdx n, crossed := σ.crossed ++ [m] } := by
  have hperm := perm_deliver hm
  refine ⟨h.states, h.past, h.settled, ?_, h.origin, ?_, hperm.nodup_iff.2 h.once, ?_⟩
  · intro p hp hzero
    exact .inl ((h.given p hp hzero).resolve_right (by simp))
  · intro m hmem
    exact h.sender m (hperm.subset hmem)
  · intro p hp j hj hzero
    rcases h.spread p hp j hj hzero with hfly | hdrop | heq
    · obtain ⟨k, hk, hget⟩ := List.mem_iff_getElem.1 hfly
      by_cases hkn : k = n
      · -- this is the message that arrives
        subst hkn
        rw [List.getElem?_eq_getElem hk, hget] at hm
        cases hm
        exact .inr (.inr rfl)
      · refine .inl ?_
        rw [← hget]
        exact List.mem_eraseIdx_iff_getElem.2 ⟨k, hk, hkn, rfl⟩
    · exact .inr (.inl hdrop)
    · cases heq

/-- a reset ends a round: nothing is asked of the node's state with respect to what it took before -/
theorem Inv.reset (h : F.Inv I none σ) (i : ι) {s : S} (hs : I s) :
    F.Inv I none
      { σ with state := Function.update σ.state i s, resets := Function.update σ.resets i (σ.resets i + 1) } := by
  have hle : ∀ j, σ.resets j ≤ Function.update σ.resets i (σ.resets i + 1) j :=
    forall_update (P := fun j r => σ.resets j ≤ r) (fun j => le_rfl) (Nat.le_succ _)
  -- a node whose count is unchanged is another one, with the state it had
  have hother : ∀ j, Function.update σ.resets i (σ.resets i + 1) j ≤ σ.resets j →
      Function.update σ.state i s j = σ.state j := by
    intro j hj
    refine Function.update_of_ne ?_ s σ.state
    rintro rfl
    rw [Function.update_self] at hj
    omega
  refine ⟨forall_update (P := fun _ s => I s) h.states hs, ?_, ?_, ?_, h.origin, h.sender, h.once, ?_⟩
  · intro p hp
    exact (h.past p hp).trans (hle p.node)
  · intro p hp hround
    have hpast := h.past p hp
    have hsame := hle p.node
    dsimp only at hround ⊢
    rw [hother p.node (by omega)]
    exact h.settled p hp (by omega)
  · intro p hp hzero
    have hsame := hle p.1
    dsimp only at hzero ⊢
    rw [hother p.1 (by omega)]
    exact h.given p hp (by omega)
  · intro p hp j hj hzero
    have hsame := hle j
    dsimp only at hzero ⊢
    rw [hother j (by omega)]
    exact h.spread p hp j hj (by omega)

/-- a message arrives: it is one that was under way -/
theorem exec_deliver {n : ℕ} (h : F.exec σ (.deliver n) = some σ') : ∃ m, σ.flying[n]? = some m ∧
    F.offer { σ with flying := σ.flying.eraseIdx n, crossed := σ.crossed ++ [m] } m.receiver m.taking.item
      ((F.neighbours m.receiver).filter fun j => decide (j ≠ m.taking.node)) = σ' := by
  unfold Flood.exec at h
  dsimp only at h
  cases hget : σ.flying[n]? with
  | none =>
    rw [hget] at h
    cases h
  | some m =>
    rw [hget] at h
    exact ⟨m, rfl, Option.some.inj h⟩

theorem Inv.exec (hF : F.Lawful I) (h : F.Inv I none σ) {m : Move ι S X} (hm : Fresh I σ m)
    (hexec : F.exec σ m = some σ') : F.Inv I none σ' := by
  cases m with
  | submit i x =>
    cases hexec
    refine (h.submit i x).offer hF ⟨i, List.mem_append_right _ (List.mem_singleton.2 rfl)⟩ (List.Sublist.refl _) ?_
    intro j hj _
    exact .inl hj
  | deliver n =>
    obtain ⟨m, hget, rfl⟩ := exec_deliver hexec
    have hsent := (h.sender m (List.mem_append_right _ (List.mem_of_getElem? hget))).1
    refine (h.deliver hget).offer hF (h.origin m.taking hsent) List.filter_sublist ?_
    intro j hj hzero
    by_cases hja : j = m.taking.node
    · -- the neighbour it comes from has taken it, in its first round
      subst hja
      have hround := h.past m.taking hsent
      dsimp only at hzero
      exact .inr (h.settled m.taking hsent (by omega))
    · exact .inl (List.mem_filter.2 ⟨hj, decide_eq_true hja⟩)
  | reset i s =>
    cases hexec
    exact h.reset i hm

/-! ## What holds in every state reached -/

variable {init : ι → S}

theorem Reached.inv (hF : F.Lawful I) (hI : ∀ i, I (init i)) (h : (F.machine init).Reached (Fresh I) σ) :
    F.Inv I none σ := by
  refine h.invariant ?_ ?_
  · rintro σ rfl
    exact inv_start hI
  · intro σ m σ' hσ hm hexec
    exact hσ.exec hF hm hexec

/-- the messages that `p` picks are of one sender, receiver and item -/
theorem Reached.crossings (hF : F.Lawful I) (hI : ∀ i, I (init i)) (h : (F.machine init).Reached (Fresh I) σ)
    {p : Msg ι X → Bool} {a b : ι} {x : X}
    (hp : ∀ m ∈ σ.crossed ++ σ.flying, p m = true → m.taking.node = a ∧ m.receiver = b ∧ m.taking.item = x) :
    (σ.crossed ++ σ.flying).countP p ≤ σ.resets a + 1 := by
  have hinv := Reached.inv hF hI h
  let rounds : List (Msg ι X) := (List.range (σ.resets a + 1)).map fun r => ⟨⟨a, r, x⟩, b⟩
  have hsub : (σ.crossed ++ σ.flying).filter p ⊆ rounds := by
    intro m hm
    obtain ⟨hmem, hpick⟩ := List.mem_filter.1 hm
    obtain ⟨rfl, rfl, rfl⟩ := hp m hmem hpick
    have hround := hinv.past _ (hinv.sender m hmem).1
    exact List.mem_map.2 ⟨m.taking.round, List.mem_range.2 (Nat.lt_succ_of_le hround), rfl⟩
  calc (σ.crossed ++ σ.flying).countP p = ((σ.crossed ++ σ.flying).filter p).length := List.countP_eq_length_filter
    _ ≤ rounds.length := (List.subperm_of_subset (hinv.once.sublist List.filter_sublist) hsub).length_le
    _ = σ.resets a + 1 := by rw [List.length_map, List.length_range]

theorem Reached.bounded [Fintype ι] (hF : F.Lawful I) (hI : ∀ i, I (init i)) (h : (F.machine init).Reached (Fresh I) σ) :
    σ.crossed.length + σ.flying.length ≤ (∑ i, (σ.resets i + 1) * (F.neighbours i).length) * σ.submitted.length := by
  have hinv := Reached.inv hF hI h
  let links : List (Msg ι X) := Finset.univ.toList.flatMap fun i => (List.range (σ.resets i + 1)).flatMap fun r =>
    (F.neighbours i).flatMap fun j => σ.submitted.map fun p => ⟨⟨i, r, p.2⟩, j⟩
  have hsub : (σ.crossed ++ σ.flying) ⊆ links := by
    intro m hm
    obtain ⟨htaken, hb⟩ := hinv.sender m hm
    obtain ⟨k, hk⟩ := hinv.origin _ htaken
    refine List.mem_flatMap.2 ⟨m.taking.node, Finset.mem_toList.2 (Finset.mem_univ _), ?_⟩
    refine List.mem_flatMap.2 ⟨m.taking.round, List.mem_range.2 (Nat.lt_succ_of_le (hinv.past _ htaken)), ?_⟩
    exact List.mem_flatMap.2 ⟨m.receiver, hb, List.mem_map.2 ⟨(k, m.taking.item), hk, rfl⟩⟩
  have hlinks : links.length = (∑ i, (σ.resets i + 1) * (F.neighbours i).length) * σ.submitted.length := by
    simp only [links, List.length_flatMap, List.length_map, List.map_const', List.sum_replicate, Nat.nsmul_eq_mul,
      List.length_range, ← Nat.mul_assoc]
    rw [List.sum_map_mul_right, Finset.sum_map_toList]
  calc σ.crossed.length + σ.flying.length = (σ.crossed ++ σ.flying).length := List.length_append.symm
    _ ≤ links.length := (List.subperm_of_subset hinv.once hsub).length_le
    _ = _ := hlinks

theorem Reached.spread (hF : F.Lawful I) (hI : ∀ i, I (init i)) (h : (F.machine init).Reached (Fresh I) σ)
    (hquiet : σ.flying = []) {p : Taking ι X} {j : ι} (hp : p ∈ σ.taken) (hj : j ∈ F.neighbours p.node)
    (hzero : σ.resets j = 0) : F.take (σ.state j) p.item = none := by
  rcases (Reached.inv hF hI h).spread p hp j hj hzero with hfly | hdrop | heq
  · rw [hquiet] at hfly
    exact absurd hfly List.not_mem_nil
  · exact hdrop
  · cases heq

theorem Reached.given (hF : F.Lawful I) (hI : ∀ i, I (init i)) (h : (F.machine init).Reached (Fresh I) σ) {i : ι} {x : X}
    (hx : (i, x) ∈ σ.submitted) (hzero : σ.resets i = 0) : F.take (σ.state i) x = none :=
  ((Reached.inv hF hI h).given (i, x) hx hzero).resolve_right (by simp)

theorem Reached.origin (hF : F.Lawful I) (hI : ∀ i, I (init i)) (h : (F.machine init).Reached (Fresh I) σ)
    {p : Taking ι X} (hp : p ∈ σ.taken) : ∃ k, (k, p.item) ∈ σ.submitted := (Reached.inv hF hI h).origin p hp

/-! ## Nodes that were never reset -/

/-- what holds of the nodes at the start, and goes on to hold when a node takes something, holds of a node that was never
reset; `P` may speak of what has been taken -/
theorem Reached.first_round {C : Net ι S X → Move ι S X → Prop} {P : ι → List (Taking ι X) → S → Prop}
    (hinit : ∀ i, P i [] (init i)) (hmono : ∀ i l p s, P i l s → P i (l ++ [p]) s)
    (htake : ∀ i l s x s', P i l s → F.take s x = some s' → P i (l ++ [⟨i, 0, x⟩]) s')
    (h : (F.machine init).Reached C σ) (hzero : σ.resets i = 0) : P i σ.taken (σ.state i) := by
  have hoffer : ∀ (τ : Net ι S X) (k : ι) (y : X) (onward : List ι),
      (∀ i, τ.resets i = 0 → P i τ.taken (τ.state i)) →
      ∀ i, (F.offer τ k y onward).resets i = 0 →
        P i (F.offer τ k y onward).taken ((F.offer τ k y onward).state i) := by
    intro τ k y onward hτ i hi
    unfold Flood.offer at hi ⊢
    cases hk : F.take (τ.state k) y with
    | none =>
      rw [hk] at hi
      exact hτ i hi
    | some s =>
      rw [hk] at hi
      dsimp only at hi ⊢
      by_cases hik : i = k
      · subst hik
        rw [Function.update_self, hi]
        exact htake i _ _ y s (hτ i hi) hk
      · rw [Function.update_of_ne hik]
        exact hmono i _ _ _ (hτ i hi)
  refine h.invariant (I := fun σ => ∀ i, σ.resets i = 0 → P i σ.taken (σ.state i)) ?_ ?_ i hzero
  · rintro σ rfl i _
    exact hinit i
  · intro σ m σ' hσ _ hexec
    cases m with
    | submit k y =>
      cases hexec
      exact hoffer _ k y _ hσ
    | deliver n =>
      obtain ⟨m, _, rfl⟩ := exec_deliver hexec
      exact hoffer _ _ _ _ hσ
    | reset k s =>
      cases hexec
      intro i hi
      dsimp only at hi ⊢
      have hik : i ≠ k := by
        rintro rfl
        rw [Function.update_self] at hi
        cases hi
      rw [Function.update_of_ne hik] at hi ⊢
      exact hσ i hi

theorem Reached.unreset {C : Net ι S X → Move ι S X → Prop} {P : S → Prop} (hinit : ∀ i, P (init i))
    (htake : ∀ s x s', P s → F.take s x = some s' → P s') (h : (F.machine init).Reached C σ) (hzero : σ.resets i = 0) :
    P (σ.state i) :=
  Reached.first_round (P := fun _ _ s => P s) hinit (fun _ _ _ _ hs => hs) (fun _ _ s x s' hs => htake s x s' hs) h hzero

/-- `H` is what a node holds: nothing at first, and then what it takes -/
theorem Reached.held {C : Net ι S X → Move ι S X → Prop} {H : S → X → Prop} (hinit : ∀ i x, ¬ H (init i) x)
    (hstep : ∀ s x y s', F.take s x = some s' → H s' y → H s y ∨ y = x) (h : (F.machine init).Reached C σ)
    (hzero : σ.resets i = 0) (hx : H (σ.state i) x) : ⟨i, 0, x⟩ ∈ σ.taken := by
  refine Reached.first_round (P := fun i l s => ∀ x, H s x → ⟨i, 0, x⟩ ∈ l) ?_ ?_ ?_ h hzero x hx
  · intro i x hx
    exact absurd hx (hinit i x)
  · intro i l p s hs x hx
    exact List.mem_append_left _ (hs x hx)
  · intro i l s y s' hs hk x hx
    rcases hstep s y x s' hk hx with hx | rfl
    · exact List.mem_append_left _ (hs x hx)
    · exact List.mem_append_right _ (List.mem_singleton.2 rfl)

end Flood

end RustProof
