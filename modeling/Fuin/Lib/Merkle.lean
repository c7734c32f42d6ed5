import Mathlib.Data.Nat.Log
import Mathlib.Data.List.Nodup
import Mathlib.Data.Set.Function

/-! # Merkle trees with a repeated last node

A level of nodes is reduced by pairing neighbours; a last node without a neighbour is paired with
itself. The root of a list of leaves is what is left at the end, a path holds the siblings of a
position from the leaves up, and `walk` recomputes the root from a leaf and its path.

The hash of two nodes (`node`) is only assumed to have no collision on the pairs that are hashed, and
to differ there from every leaf (`Separated`). Then a walk that ends in the root has the length of
the tree's paths whatever it starts from (`walk_depth`), starts from a leaf of the tree and carries its
path (`walk_root`), and two lists without repetition that have the same root are equal
(`eq_of_root`). -/

namespace Fuin.Lib.Merkle

variable {α : Type}

/-- The neighbours of a level, the last one with itself if it has none. -/
def pairs : List α → List (α × α)
  | [] => []
  | [a] => [(a, a)]
  | a :: b :: l => (a, b) :: pairs l

/-- One level up. -/
def reduce (node : α → α → α) (l : List α) : List α := (pairs l).map fun p => node p.1 p.2

theorem length_pairs : ∀ l : List α, (pairs l).length = (l.length + 1) / 2
  | [] => by simp [pairs]
  | [_] => by simp [pairs]
  | _ :: _ :: l => by
    simp only [pairs, List.length_cons, length_pairs l]
    omega

@[simp] theorem length_reduce (node : α → α → α) (l : List α) :
    (reduce node l).length = (l.length + 1) / 2 := by
  rw [reduce, List.length_map, length_pairs]

/-- The sibling of a position: the neighbour, or itself if there is none. -/
def siblingIndex (n i : ℕ) : ℕ :=
  let s := if i % 2 = 0 then i + 1 else i - 1
  if n ≤ s then i else s

theorem siblingIndex_lt {n i : ℕ} (h : i < n) : siblingIndex n i < n := by
  simp only [siblingIndex]
  split_ifs <;> omega

/-- The pair at a position of the level above. -/
theorem getElem?_pairs : ∀ (l : List α) (i : ℕ), (pairs l)[i]? =
    l[2 * i]?.bind fun a => l[siblingIndex l.length (2 * i)]?.map fun b => (a, b)
  | [], i => by simp [pairs]
  | [a], 0 => rfl
  | [a], i + 1 => by simp [pairs, Nat.mul_succ]
  | a :: b :: l, 0 => by
    have hs : siblingIndex (a :: b :: l).length (2 * 0) = 1 := by simp [siblingIndex]
    rw [hs]
    rfl
  | a :: b :: l, i + 1 => by
    have hs : siblingIndex (a :: b :: l).length (2 * (i + 1)) =
        siblingIndex l.length (2 * i) + 2 := by
      simp only [siblingIndex, List.length_cons]
      split_ifs <;> omega
    rw [hs]
    simpa [pairs, Nat.mul_succ] using getElem?_pairs l i

/-- What a node and its sibling are hashed to, by the parity of the position. -/
def join (node : α → α → α) (i : ℕ) (x s : α) : α := if i % 2 = 0 then node x s else node s x

/-- The pair that `join` hashes. -/
def joined (i : ℕ) (x s : α) : α × α := if i % 2 = 0 then (x, s) else (s, x)

theorem join_eq (node : α → α → α) (i : ℕ) (x s : α) :
    join node i x s = node (joined i x s).1 (joined i x s).2 := by
  unfold join joined
  split_ifs <;> rfl

theorem joined_inj {i : ℕ} {x s x' s' : α} (h : joined i x s = joined i x' s') :
    x = x' ∧ s = s' := by
  unfold joined at h
  split_ifs at h <;> simp_all

/-- **The parent of a position** joins it with its sibling. -/
theorem getElem?_pairs_half {l : List α} {i : ℕ} {x s : α} (hx : l[i]? = some x)
    (hs : l[siblingIndex l.length i]? = some s) : (pairs l)[i / 2]? = some (joined i x s) := by
  have hi : i < l.length := (List.getElem?_eq_some_iff.mp hx).1
  rw [getElem?_pairs]
  rcases Nat.mod_two_eq_zero_or_one i with h | h
  · have h2 : 2 * (i / 2) = i := by omega
    simp [h2, hx, hs, joined, h]
  · have h2 : 2 * (i / 2) = i - 1 := by omega
    have h3 : siblingIndex l.length i = i - 1 := by
      simp only [siblingIndex]
      split_ifs <;> omega
    have h4 : siblingIndex l.length (i - 1) = i := by
      simp only [siblingIndex]
      split_ifs <;> omega
    rw [h3] at hs
    simp [h2, h4, hx, hs, joined, h]

theorem getElem?_reduce_half {node : α → α → α} {l : List α} {i : ℕ} {x s : α}
    (hx : l[i]? = some x) (hs : l[siblingIndex l.length i]? = some s) :
    (reduce node l)[i / 2]? = some (join node i x s) := by
  rw [reduce, List.getElem?_map, getElem?_pairs_half hx hs, Option.map_some, join_eq]

/-- The members of the pairs are members of the level. -/
theorem mem_of_mem_pairs : ∀ {l : List α} {p : α × α}, p ∈ pairs l → p.1 ∈ l ∧ p.2 ∈ l
  | [], _, h => nomatch h
  | [a], p, h => by
    obtain rfl := List.mem_singleton.mp h
    simp
  | a :: b :: l, p, h => by
    rcases List.mem_cons.mp h with rfl | h
    · simp
    · obtain ⟨h1, h2⟩ := mem_of_mem_pairs h
      simp [h1, h2]

/-! ### Root, path and walk -/

/-- The root, if there is a leaf. -/
def root (node : α → α → α) : List α → Option α
  | [] => none
  | [a] => some a
  | a :: b :: l => root node (reduce node (a :: b :: l))
termination_by l => l.length
decreasing_by
  simp only [length_reduce, List.length_cons]
  omega

/-- The pairs that are hashed for the root. -/
def internals (node : α → α → α) : List α → List (α × α)
  | [] => []
  | [_] => []
  | a :: b :: l => pairs (a :: b :: l) ++ internals node (reduce node (a :: b :: l))
termination_by l => l.length
decreasing_by
  simp only [length_reduce, List.length_cons]
  omega

/-- The siblings of a position, from the leaves up. -/
def path (node : α → α → α) : List α → ℕ → List α
  | [], _ => []
  | [_], _ => []
  | a :: b :: l, i =>
    ((a :: b :: l)[siblingIndex (l.length + 2) i]?).toList ++
      path node (reduce node (a :: b :: l)) (i / 2)
termination_by l => l.length
decreasing_by
  simp only [length_reduce, List.length_cons]
  omega

/-- From a node up, with the siblings given. -/
def walk (node : α → α → α) : α → ℕ → List α → α
  | x, _, [] => x
  | x, i, s :: p => walk node (join node i x s) (i / 2) p

/-- The pairs that are hashed on the way. -/
def walked (node : α → α → α) : α → ℕ → List α → List (α × α)
  | _, _, [] => []
  | x, i, s :: p => joined i x s :: walked node (join node i x s) (i / 2) p

example : root (fun a b : ℕ => 2 * a + 3 * b) [1, 2, 3] = some 61 := by decide +kernel

/-- The levels above a level of two or more. -/
theorem clog_length {n : ℕ} (h : 2 ≤ n) : Nat.clog 2 n = Nat.clog 2 ((n + 1) / 2) + 1 :=
  Nat.clog_of_two_le (by omega) h

/-- **A path has one sibling for every level.** -/
theorem length_path (node : α → α → α) : ∀ (l : List α) (i : ℕ), i < l.length →
    (path node l i).length = Nat.clog 2 l.length
  | [], _, h => absurd h (by simp)
  | [_], i, _ => by simp [path]
  | a :: b :: l, i, h => by
    obtain ⟨s, hs⟩ : ∃ s, (a :: b :: l)[siblingIndex (l.length + 2) i]? = some s :=
      ⟨_, List.getElem?_eq_getElem (siblingIndex_lt h)⟩
    have ih := length_path node (reduce node (a :: b :: l)) (i / 2)
      (by rw [length_reduce]; omega)
    rw [path, hs, List.length_append, ih, length_reduce,
      clog_length (n := (a :: b :: l).length) (by simp)]
    simp only [Option.toList_some, List.length_cons, List.length_nil]
    omega
termination_by l => l.length
decreasing_by
  simp only [length_reduce, List.length_cons]
  omega

/-- **The walk along the path of a leaf ends in the root.** -/
theorem walk_path (node : α → α → α) : ∀ (l : List α) (i : ℕ) (x : α), l[i]? = some x →
    root node l = some (walk node x i (path node l i))
  | [], _, _, h => by simp at h
  | [a], 0, x, h => by simp_all [root, path, walk]
  | [_], i + 1, _, h => by simp at h
  | a :: b :: l, i, x, h => by
    have hi : i < (a :: b :: l).length := (List.getElem?_eq_some_iff.mp h).1
    have hs := siblingIndex_lt hi
    obtain ⟨s, hs⟩ : ∃ s, (a :: b :: l)[siblingIndex (a :: b :: l).length i]? = some s :=
      ⟨_, List.getElem?_eq_getElem hs⟩
    have hup : (reduce node (a :: b :: l))[i / 2]? = some (join node i x s) :=
      getElem?_reduce_half h hs
    simp only [List.length_cons] at hs
    rw [root, path, hs, walk_path node _ _ _ hup]
    rfl
termination_by l => l.length
decreasing_by
  simp only [length_reduce, List.length_cons]
  omega

/-- The root is the only leaf, or a pair has been hashed to it. -/
theorem root_cases (node : α → α → α) : ∀ {l : List α} {r : α}, root node l = some r →
    r ∈ l ∨ ∃ p ∈ internals node l, r = node p.1 p.2
  | [], _, h => by simp [root] at h
  | [a], r, h => by simp_all [root]
  | a :: b :: l, r, h => by
    rw [root] at h
    rw [internals]
    rcases root_cases node h with hr | ⟨p, hp, rfl⟩
    · obtain ⟨p, hp, rfl⟩ := List.mem_map.mp hr
      exact Or.inr ⟨p, List.mem_append_left _ hp, rfl⟩
    · exact Or.inr ⟨p, List.mem_append_right _ hp, rfl⟩
termination_by l => l.length
decreasing_by
  simp only [length_reduce, List.length_cons]
  omega

/-! ### Without collisions -/

/-- The pairs of `S` are hashed without a collision, and to nothing that is a leaf. -/
structure Separated (node : α → α → α) (leaf : Set α) (S : Set (α × α)) : Prop where
  inj : S.InjOn fun p => node p.1 p.2
  apart : ∀ p ∈ S, node p.1 p.2 ∉ leaf

variable {node : α → α → α} {leaf : Set α} {S : Set (α × α)}

/-- The root of a full tree of a depth. -/
inductive Full (node : α → α → α) (leaf : Set α) (S : Set (α × α)) : ℕ → α → Prop
  | leaf {a : α} : a ∈ leaf → Full node leaf S 0 a
  | node {k : ℕ} {p : α × α} : p ∈ S → Full node leaf S k p.1 → Full node leaf S k p.2 →
      Full node leaf S (k + 1) (node p.1 p.2)

/-- A pair is full one level below what it is hashed to. -/
theorem Full.of_pair (hS : Separated node leaf S) {p : α × α} (hp : p ∈ S) {k : ℕ}
    (h : Full node leaf S k (node p.1 p.2)) :
    ∃ j, k = j + 1 ∧ Full node leaf S j p.1 ∧ Full node leaf S j p.2 := by
  generalize hx : node p.1 p.2 = x at h
  cases h with
  | leaf ha => exact absurd (hx ▸ ha) (hS.apart p hp)
  | node hq h1 h2 =>
    obtain rfl := hS.inj hp hq hx
    exact ⟨_, rfl, h1, h2⟩

theorem full_reduce {l : List α} {k : ℕ} (hl : ∀ x ∈ l, Full node leaf S k x)
    (hS : ∀ p ∈ pairs l, p ∈ S) : ∀ x ∈ reduce node l, Full node leaf S (k + 1) x := by
  intro x hx
  obtain ⟨p, hp, rfl⟩ := List.mem_map.mp hx
  obtain ⟨h1, h2⟩ := mem_of_mem_pairs hp
  exact .node (hS p hp) (hl _ h1) (hl _ h2)

/-- The root of a list of nodes of one depth is full. -/
theorem full_root : ∀ {l : List α} {k : ℕ} {r : α}, (∀ x ∈ l, Full node leaf S k x) →
    (∀ p ∈ internals node l, p ∈ S) → root node l = some r →
      Full node leaf S (k + Nat.clog 2 l.length) r
  | [], _, _, _, _, h => by simp [root] at h
  | [a], k, r, hl, _, h => by
    simp only [root, Option.some.injEq] at h
    subst h
    simpa using hl a (by simp)
  | a :: b :: l, k, r, hl, hS, h => by
    rw [root] at h
    rw [internals] at hS
    have hup := full_reduce hl fun p hp => hS p (List.mem_append_left _ hp)
    have ih := full_root hup (fun p hp => hS p (List.mem_append_right _ hp)) h
    rw [length_reduce] at ih
    rw [clog_length (n := (a :: b :: l).length) (by simp)]
    rwa [show k + (Nat.clog 2 (((a :: b :: l).length + 1) / 2) + 1) =
      k + 1 + Nat.clog 2 (((a :: b :: l).length + 1) / 2) by omega]
termination_by l => l.length
decreasing_by
  simp only [length_reduce, List.length_cons]
  omega

/-- **The length of a walk**: from a node that is full at one depth only, a walk to a full node is as
long as the difference. -/
theorem length_of_walk_full (hS : Separated node leaf S) : ∀ {p : List α} {x : α} {i k m : ℕ},
    (∀ q ∈ walked node x i p, q ∈ S) → (∀ m, Full node leaf S m x → m = k) →
      Full node leaf S m (walk node x i p) → m = k + p.length
  | [], _, _, _, _, _, hx, h => hx _ h
  | s :: p, x, i, k, m, hw, hx, h => by
    have hpair : joined i x s ∈ S := hw _ (by simp [walked])
    have ih := length_of_walk_full hS (k := k + 1)
      (fun q hq => hw q (List.mem_cons_of_mem _ hq)) ?_ h
    · rw [ih, List.length_cons]
      omega
    · intro m' h'
      rw [join_eq] at h'
      obtain ⟨j, rfl, h1, h2⟩ := h'.of_pair hS hpair
      have hj : Full node leaf S j x := by
        unfold joined at h1 h2
        split_ifs at h1 h2
        · exact h1
        · exact h2
      rw [hx j hj]

theorem full_of_leaf (hS : Separated node leaf S) {x : α} (hx : x ∈ leaf) {m : ℕ}
    (h : Full node leaf S m x) : m = 0 := by
  cases h with
  | leaf _ => rfl
  | node hp _ _ => exact absurd hx (hS.apart _ hp)

/-- **A walk from a leaf that ends in the root has the length of a path.** -/
theorem walk_depth (hS : Separated node leaf S) {l : List α} {x : α} {i : ℕ} {p : List α}
    (hl : ∀ y ∈ l, y ∈ leaf) (hx : x ∈ leaf) (hint : ∀ q ∈ internals node l, q ∈ S)
    (hw : ∀ q ∈ walked node x i p, q ∈ S) (h : root node l = some (walk node x i p)) :
    p.length = Nat.clog 2 l.length := by
  have hfull := full_root (k := 0) (fun y hy => Full.leaf (hl y hy)) hint h
  have := length_of_walk_full hS hw (fun m => full_of_leaf hS hx) hfull
  omega

/-- **A walk that ends in the root** starts from a leaf of the tree; if its position is one of the
tree, it is the leaf there, and the siblings are those of its path. -/
theorem walk_root (hS : Separated node leaf S) : ∀ {l : List α} {x : α} {i : ℕ} {p : List α},
    (∀ q ∈ internals node l, q ∈ S) → (∀ q ∈ walked node x i p, q ∈ S) →
      p.length = Nat.clog 2 l.length → root node l = some (walk node x i p) →
        x ∈ l ∧ (i < l.length → l[i]? = some x ∧ p = path node l i)
  | [], _, _, _, _, _, _, h => by simp [root] at h
  | [a], x, i, p, _, _, hp, h => by
    obtain rfl : p = [] := by simpa using hp
    simp only [root, walk, Option.some.injEq] at h
    subst h
    refine ⟨by simp, fun hi => ?_⟩
    obtain rfl : i = 0 := by simpa using hi
    simp [path]
  | a :: b :: l, x, i, [], _, _, hp, h => by
    rw [clog_length (n := (a :: b :: l).length) (by simp)] at hp
    simp at hp
  | a :: b :: l, x, i, s :: p, hint, hw, hp, h => by
    rw [internals] at hint
    rw [root] at h
    rw [clog_length (n := (a :: b :: l).length) (by simp)] at hp
    obtain ⟨hmem, hpos⟩ := walk_root hS (fun q hq => hint q (List.mem_append_right _ hq))
      (fun q hq => hw q (List.mem_cons_of_mem _ hq)) (by rw [length_reduce]; simpa using hp) h
    have hpair : joined i x s ∈ S := hw _ (by simp [walked])
    have hinv : ∀ {q}, q ∈ pairs (a :: b :: l) → node q.1 q.2 = join node i x s →
        q = joined i x s := fun hq he =>
      hS.inj (hint _ (List.mem_append_left _ hq)) hpair (he.trans (join_eq _ _ _ _))
    constructor
    · obtain ⟨q, hq, he⟩ := List.mem_map.mp hmem
      obtain ⟨h1, h2⟩ := mem_of_mem_pairs hq
      rw [hinv hq he] at h1 h2
      unfold joined at h1 h2
      split_ifs at h1 h2
      · exact h1
      · exact h2
    · intro hi
      obtain ⟨y, hy⟩ : ∃ y, (a :: b :: l)[i]? = some y := ⟨_, List.getElem?_eq_getElem hi⟩
      obtain ⟨t, ht⟩ : ∃ t, (a :: b :: l)[siblingIndex (a :: b :: l).length i]? = some t :=
        ⟨_, List.getElem?_eq_getElem (siblingIndex_lt hi)⟩
      have hget := getElem?_pairs_half hy ht
      obtain ⟨hup, hpath⟩ := hpos (by rw [length_reduce]; omega)
      rw [getElem?_reduce_half hy ht, Option.some.injEq, join_eq] at hup
      obtain ⟨rfl, rfl⟩ := joined_inj (hinv (List.mem_of_getElem? hget) (hup))
      refine ⟨hy, ?_⟩
      rw [path, ← hpath]
      simp only [List.length_cons] at ht
      rw [ht]
      rfl
termination_by l => l.length
decreasing_by
  simp only [length_reduce, List.length_cons]
  omega

/-! ### Lists without repetition -/

/-- Without a repetition the pairs of a level determine it: a last node paired with itself is told
from two equal neighbours. -/
theorem pairs_inj : ∀ {l l' : List α}, l.Nodup → l'.Nodup → pairs l = pairs l' → l = l'
  | [], [], _, _, _ => rfl
  | [], [_], _, _, h => by simp [pairs] at h
  | [], _ :: _ :: _, _, _, h => by simp [pairs] at h
  | [_], [], _, _, h => by simp [pairs] at h
  | [_], [_], _, _, h => by simp_all [pairs]
  | [c], a :: b :: l, _, hn, h => by
    simp only [pairs, List.cons.injEq, Prod.mk.injEq] at h
    obtain ⟨⟨rfl, rfl⟩, -⟩ := h
    simp at hn
  | _ :: _ :: _, [], _, _, h => by simp [pairs] at h
  | a :: b :: l, [c], hn, _, h => by
    simp only [pairs, List.cons.injEq, Prod.mk.injEq] at h
    obtain ⟨⟨rfl, rfl⟩, -⟩ := h
    simp at hn
  | a :: b :: l, a' :: b' :: l', hn, hn', h => by
    simp only [pairs, List.cons.injEq, Prod.mk.injEq] at h
    obtain ⟨⟨rfl, rfl⟩, h⟩ := h
    rw [pairs_inj (List.nodup_cons.mp (List.nodup_cons.mp hn).2).2
      (List.nodup_cons.mp (List.nodup_cons.mp hn').2).2 h]

theorem nodup_pairs : ∀ {l : List α}, l.Nodup → (pairs l).Nodup
  | [], _ => List.nodup_nil
  | [_], _ => List.nodup_singleton _
  | a :: b :: l, h => by
    obtain ⟨ha, h⟩ := List.nodup_cons.mp h
    refine List.nodup_cons.mpr ⟨fun hp => ?_, nodup_pairs (List.nodup_cons.mp h).2⟩
    exact ha (List.mem_cons_of_mem _ (mem_of_mem_pairs hp).1)

/-- Levels whose pairs are hashed without a collision are told apart by the level above. -/
theorem pairs_of_reduce (hS : Separated node leaf S) : ∀ {ps qs : List (α × α)},
    (∀ p ∈ ps, p ∈ S) → (∀ q ∈ qs, q ∈ S) →
      ps.map (fun p => node p.1 p.2) = qs.map (fun q => node q.1 q.2) → ps = qs
  | [], [], _, _, _ => rfl
  | [], _ :: _, _, _, h => by simp at h
  | _ :: _, [], _, _, h => by simp at h
  | p :: ps, q :: qs, hp, hq, h => by
    obtain ⟨h1, h2⟩ := List.cons.inj h
    rw [hS.inj (hp p (by simp)) (hq q (by simp)) h1,
      pairs_of_reduce hS (fun p' h' => hp p' (by simp [h'])) (fun q' h' => hq q' (by simp [h'])) h2]

theorem root_isSome (node : α → α → α) : ∀ {l : List α}, l ≠ [] → (root node l).isSome
  | [], h => absurd rfl h
  | [_], _ => by simp [root]
  | a :: b :: l, _ => by
    rw [root]
    exact root_isSome node (by simp [reduce, pairs])
termination_by l => l.length
decreasing_by
  simp only [length_reduce, List.length_cons]
  omega

theorem Full.unique (hS : Separated node leaf S) {k m : ℕ} {x : α} (h : Full node leaf S k x)
    (h' : Full node leaf S m x) : k = m := by
  induction h generalizing m with
  | leaf ha => exact (full_of_leaf hS ha h').symm
  | node hp _ _ ih _ =>
    obtain ⟨j, rfl, h1, -⟩ := h'.of_pair hS hp
    rw [ih h1]

/-- Lists of one depth that have the same root are equal. -/
theorem eq_of_root_depth (hS : Separated node leaf S) : ∀ {l l' : List α} {r : α},
    l.Nodup → l'.Nodup → (∀ q ∈ internals node l, q ∈ S) → (∀ q ∈ internals node l', q ∈ S) →
      Nat.clog 2 l.length = Nat.clog 2 l'.length → root node l = some r → root node l' = some r →
        l = l'
  | [], _, _, _, _, _, _, _, h, _ => by simp [root] at h
  | _, [], _, _, _, _, _, _, _, h => by simp [root] at h
  | [a], [a'], r, _, _, _, _, _, h, h' => by simp_all [root]
  | [_], a' :: b' :: l', _, _, _, _, _, hlen, _, _ => by
    rw [clog_length (n := (a' :: b' :: l').length) (by simp)] at hlen
    simp at hlen
  | a :: b :: l, [_], _, _, _, _, _, hlen, _, _ => by
    rw [clog_length (n := (a :: b :: l).length) (by simp)] at hlen
    simp at hlen
  | a :: b :: l, a' :: b' :: l', r, hn, hn', hint, hint', hlen, h, h' => by
    rw [clog_length (n := (a :: b :: l).length) (by simp),
      clog_length (n := (a' :: b' :: l').length) (by simp), Nat.add_right_cancel_iff,
      ← length_reduce node, ← length_reduce node] at hlen
    rw [root] at h h'
    rw [internals] at hint hint'
    have hinj : ∀ {l : List α}, (∀ q ∈ pairs l, q ∈ S) →
        ∀ p ∈ pairs l, ∀ q ∈ pairs l, node p.1 p.2 = node q.1 q.2 → p = q :=
      fun hl p hp q hq he => hS.inj (hl p hp) (hl q hq) he
    have hp := fun q hq => hint q (List.mem_append_left _ hq)
    have hp' := fun q hq => hint' q (List.mem_append_left _ hq)
    have hup := eq_of_root_depth hS
      ((List.nodup_map_iff_inj_on (nodup_pairs hn)).mpr (hinj hp))
      ((List.nodup_map_iff_inj_on (nodup_pairs hn')).mpr (hinj hp'))
      (fun q hq => hint q (List.mem_append_right _ hq))
      (fun q hq => hint' q (List.mem_append_right _ hq)) hlen h h'
    exact pairs_inj hn hn' (pairs_of_reduce hS hp hp' hup)
termination_by l => l.length
decreasing_by
  simp only [List.length_map, length_pairs, List.length_cons]
  omega

/-- **Lists of leaves without repetition that have the same root are equal.** -/
theorem eq_of_root (hS : Separated node leaf S) {l l' : List α} {r : α} (hn : l.Nodup)
    (hn' : l'.Nodup) (hl : ∀ x ∈ l, x ∈ leaf) (hl' : ∀ x ∈ l', x ∈ leaf)
    (hint : ∀ q ∈ internals node l, q ∈ S) (hint' : ∀ q ∈ internals node l', q ∈ S)
    (h : root node l = some r) (h' : root node l' = some r) : l = l' := by
  have hfull := full_root (k := 0) (fun x hx => Full.leaf (hl x hx)) hint h
  have hfull' := full_root (k := 0) (fun x hx => Full.leaf (hl' x hx)) hint' h'
  have hdepth := hfull.unique hS hfull'
  exact eq_of_root_depth hS hn hn' hint hint' (by omega) h h'

end Fuin.Lib.Merkle
