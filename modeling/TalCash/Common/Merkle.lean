import Mathlib
/-!
# Merkle trees built level by level

`pairUp` hashes neighbours in pairs and carries an odd last node up;
`reduce` repeats it until one node is left. The same two functions at
`Tree.node` build the tree behind the hashes, and the tree remembers its
leaves (`leaves_reduce`). So where the hash function has no collision
among the messages of two trees, equal roots mean equal leaf lists
(`leaves_eq_of_hash_eq`), whatever the two lengths.
-/

namespace Merkle

variable {α δ ε μ : Type*}

/-- One level up: neighbours in pairs, an odd last node unchanged. -/
def pairUp (node : δ → δ → δ) : List δ → List δ
  | a :: b :: rest => node a b :: pairUp node rest
  | rest => rest

/-- Levels upward, for as long as there is more than one node. -/
def reduce (node : δ → δ → δ) : ℕ → List δ → List δ
  | 0, level => level
  | n + 1, level => if 1 < level.length then reduce node n (pairUp node level) else level

/-! ## The loop ends -/

theorem length_pairUp (node : δ → δ → δ) :
    ∀ l : List δ, (pairUp node l).length = (l.length + 1) / 2
  | [] => by simp [pairUp]
  | [_] => by simp [pairUp]
  | a :: b :: rest => by
    simp only [pairUp, List.length_cons, length_pairUp node rest]
    omega

/-- As many rounds as there are nodes leave one of them. -/
theorem length_reduce (node : δ → δ → δ) :
    ∀ (n : ℕ) (l : List δ), l ≠ [] → l.length ≤ n + 1 → (reduce node n l).length = 1 := by
  intro n
  induction n with
  | zero =>
    intro l hne hl
    have := List.length_pos_iff.2 hne
    exact le_antisymm hl this
  | succ n ih =>
    intro l hne hl
    have hpos := List.length_pos_iff.2 hne
    rw [reduce]
    split
    · rename_i h1
      have hlen := length_pairUp node l
      refine ih _ (List.length_pos_iff.1 (by omega)) (by omega)
    · omega

/-! ## The tree behind the hashes -/

/-- A binary tree with values at its leaves. -/
inductive Tree (α : Type*)
  /-- A leaf. -/
  | leaf (a : α)
  /-- An inner node. -/
  | node (l r : Tree α)

namespace Tree

/-- The hash of a tree, from a hash of leaves and one of pairs. -/
def hash (leafHash : α → δ) (nodeHash : δ → δ → δ) : Tree α → δ
  | leaf a => leafHash a
  | node l r => nodeHash (hash leafHash nodeHash l) (hash leafHash nodeHash r)

/-- The leaves, left to right. -/
def leaves : Tree α → List α
  | leaf a => [a]
  | node l r => l.leaves ++ r.leaves

end Tree

theorem map_pairUp {f : δ → ε} {node : δ → δ → δ} {node' : ε → ε → ε}
    (hf : ∀ a b, f (node a b) = node' (f a) (f b)) :
    ∀ l : List δ, (pairUp node l).map f = pairUp node' (l.map f)
  | [] => rfl
  | [_] => rfl
  | a :: b :: rest => by
    simp only [pairUp, List.map_cons, hf, map_pairUp hf rest]

/-- Reduction commutes with a homomorphism of pairing. -/
theorem map_reduce {f : δ → ε} {node : δ → δ → δ} {node' : ε → ε → ε}
    (hf : ∀ a b, f (node a b) = node' (f a) (f b)) :
    ∀ (n : ℕ) (l : List δ), (reduce node n l).map f = reduce node' n (l.map f) := by
  intro n
  induction n with
  | zero => intro l; rfl
  | succ n ih =>
    intro l
    simp only [reduce, List.length_map]
    split
    · rw [ih, map_pairUp hf]
    · rfl

theorem leaves_pairUp :
    ∀ l : List (Tree α), (pairUp Tree.node l).flatMap Tree.leaves = l.flatMap Tree.leaves
  | [] => rfl
  | [_] => rfl
  | a :: b :: rest => by
    simp only [pairUp, List.flatMap_cons, Tree.leaves, leaves_pairUp rest, List.append_assoc]

/-- Building a tree keeps the leaves in order. -/
theorem leaves_reduce : ∀ (n : ℕ) (l : List (Tree α)),
    (reduce Tree.node n l).flatMap Tree.leaves = l.flatMap Tree.leaves := by
  intro n
  induction n with
  | zero => intro l; rfl
  | succ n ih =>
    intro l
    rw [reduce]
    split
    · rw [ih, leaves_pairUp]
    · rfl

theorem flatMap_leaf (l : List α) : (l.map Tree.leaf).flatMap Tree.leaves = l := by
  induction l with
  | nil => rfl
  | cons a l ih => simp only [List.map_cons, List.flatMap_cons, Tree.leaves, ih, List.singleton_append]

/-! ## Roots and the messages hashed for them -/

/-- The root of a list of leaves under a hash of tagged messages. -/
def root (hash : μ → δ) (leafMsg : α → μ) (nodeMsg : δ → δ → μ) (l : List α) : Option δ :=
  (reduce (fun a b => hash (nodeMsg a b)) l.length (l.map fun a => hash (leafMsg a))).head?

/-- The tree a list of leaves is folded into. -/
def tree (l : List α) : Option (Tree α) := (reduce Tree.node l.length (l.map Tree.leaf)).head?

/-- The messages hashed in a tree. -/
def Tree.messages (hash : μ → δ) (leafMsg : α → μ) (nodeMsg : δ → δ → μ) : Tree α → List μ
  | leaf a => [leafMsg a]
  | node l r =>
    nodeMsg (l.hash (fun a => hash (leafMsg a)) fun a b => hash (nodeMsg a b))
        (r.hash (fun a => hash (leafMsg a)) fun a b => hash (nodeMsg a b)) ::
      (l.messages hash leafMsg nodeMsg ++ r.messages hash leafMsg nodeMsg)

/-- The messages hashed for a list of leaves. -/
def messages (hash : μ → δ) (leafMsg : α → μ) (nodeMsg : δ → δ → μ) (l : List α) : List μ :=
  match tree l with
  | none => []
  | some t => t.messages hash leafMsg nodeMsg

variable {hash : μ → δ} {leafMsg : α → μ} {nodeMsg : δ → δ → μ}

theorem exists_tree {l : List α} (h : l ≠ []) : ∃ t, tree l = some t ∧ t.leaves = l := by
  have hlen : (reduce Tree.node l.length (l.map Tree.leaf)).length = 1 :=
    length_reduce _ _ _ (by simpa using h) (by simp)
  obtain ⟨t, ht⟩ := List.length_eq_one_iff.1 hlen
  refine ⟨t, by rw [tree, ht]; rfl, ?_⟩
  have := leaves_reduce l.length (l.map Tree.leaf)
  rw [ht, flatMap_leaf, List.flatMap_cons, List.flatMap_nil, List.append_nil] at this
  exact this

/-- The root is the hash of the tree. -/
theorem root_eq_hash (l : List α) :
    root hash leafMsg nodeMsg l =
      (tree l).map (Tree.hash (fun a => hash (leafMsg a)) fun a b => hash (nodeMsg a b)) := by
  have hmap : ∀ n (l : List (Tree α)),
      (reduce Tree.node n l).map (Tree.hash (fun a => hash (leafMsg a)) fun a b => hash (nodeMsg a b)) =
        reduce (fun a b => hash (nodeMsg a b)) n
          (l.map (Tree.hash (fun a => hash (leafMsg a)) fun a b => hash (nodeMsg a b))) :=
    map_reduce fun _ _ => rfl
  unfold root tree
  rw [← List.head?_map, hmap, List.map_map]
  rfl

theorem root_isSome {l : List α} (h : l ≠ []) : ∃ d, root hash leafMsg nodeMsg l = some d := by
  obtain ⟨t, ht, -⟩ := exists_tree h
  exact ⟨_, by rw [root_eq_hash, ht]; rfl⟩

/-- The root is the hash of one of the messages. -/
theorem exists_message_of_root {l : List α} {d : δ} (h : root hash leafMsg nodeMsg l = some d) :
    ∃ m ∈ messages hash leafMsg nodeMsg l, hash m = d ∧
      ((∃ a, m = leafMsg a) ∨ ∃ a b, m = nodeMsg a b) := by
  rw [root_eq_hash, Option.map_eq_some_iff] at h
  obtain ⟨t, ht, rfl⟩ := h
  rw [messages, ht]
  cases t with
  | leaf a => exact ⟨_, List.mem_cons_self, rfl, Or.inl ⟨a, rfl⟩⟩
  | node l r => exact ⟨_, List.mem_cons_self, rfl, Or.inr ⟨_, _, rfl⟩⟩

/-- **Trees are fixed by their hash**, where no two messages of the two
trees collide. -/
theorem eq_of_hash_eq (hleaf : Function.Injective leafMsg)
    (hnode : ∀ a b c d, nodeMsg a b = nodeMsg c d → a = c ∧ b = d)
    (hdisj : ∀ a b c, leafMsg a ≠ nodeMsg b c) {S : Set μ} (hS : Set.InjOn hash S) :
    ∀ t t' : Tree α, (∀ m ∈ t.messages hash leafMsg nodeMsg, m ∈ S) →
      (∀ m ∈ t'.messages hash leafMsg nodeMsg, m ∈ S) →
      t.hash (fun a => hash (leafMsg a)) (fun a b => hash (nodeMsg a b)) =
        t'.hash (fun a => hash (leafMsg a)) (fun a b => hash (nodeMsg a b)) → t = t' := by
  intro t
  induction t with
  | leaf a =>
    intro t' ht ht' he
    have ha := ht _ List.mem_cons_self
    cases t' with
    | leaf b => rw [hleaf (hS ha (ht' _ List.mem_cons_self) he)]
    | node l r => exact absurd (hS ha (ht' _ List.mem_cons_self) he) (hdisj _ _ _)
  | node l r ihl ihr =>
    intro t' ht ht' he
    have hm := ht _ List.mem_cons_self
    cases t' with
    | leaf b => exact absurd (hS hm (ht' _ List.mem_cons_self) he).symm (hdisj _ _ _)
    | node l' r' =>
      obtain ⟨hl, hr⟩ := hnode _ _ _ _ (hS hm (ht' _ List.mem_cons_self) he)
      rw [ihl l' (fun m h => ht m (List.mem_cons_of_mem _ (List.mem_append_left _ h)))
          (fun m h => ht' m (List.mem_cons_of_mem _ (List.mem_append_left _ h))) hl,
        ihr r' (fun m h => ht m (List.mem_cons_of_mem _ (List.mem_append_right _ h)))
          (fun m h => ht' m (List.mem_cons_of_mem _ (List.mem_append_right _ h))) hr]

/-- **A root commits to its leaves**: to each of them, their order and
their number. -/
theorem eq_of_root_eq (hleaf : Function.Injective leafMsg)
    (hnode : ∀ a b c d, nodeMsg a b = nodeMsg c d → a = c ∧ b = d)
    (hdisj : ∀ a b c, leafMsg a ≠ nodeMsg b c) {S : Set μ} (hS : Set.InjOn hash S)
    {l l' : List α} (hl : ∀ m ∈ messages hash leafMsg nodeMsg l, m ∈ S)
    (hl' : ∀ m ∈ messages hash leafMsg nodeMsg l', m ∈ S) (hne : l ≠ []) (hne' : l' ≠ [])
    (h : root hash leafMsg nodeMsg l = root hash leafMsg nodeMsg l') : l = l' := by
  obtain ⟨t, ht, rfl⟩ := exists_tree hne
  obtain ⟨t', ht', rfl⟩ := exists_tree hne'
  rw [messages, ht] at hl
  rw [messages, ht'] at hl'
  rw [root_eq_hash, root_eq_hash, ht, ht', Option.map_some, Option.map_some,
    Option.some.injEq] at h
  rw [eq_of_hash_eq hleaf hnode hdisj hS t t' hl hl' h]

end Merkle
