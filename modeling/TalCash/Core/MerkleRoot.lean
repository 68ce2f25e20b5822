import TalCash.Common.MerkleSplit
import TalCash.Core.Block
/-!
# The Merkle root of RFC 6962

`merkleRootOver` is `merkle_root` at any hash function of byte strings,
also one whose digests have no fixed length; `merkleRoot` is its instance
at SHA-256 (`merkleRoot_eq_over`). `recursiveRoot` is the definition of
the RFC. Both give the same root for every list of leaves
(`merkleRootOver_eq_recursiveRoot`).
-/

namespace TalCash

/-- The hash of a leaf. -/
def leafHash (hash : Bytes → Bytes) (leaf : Bytes) : Bytes := hash (0 :: leaf)

/-- The hash of an inner node. -/
def nodeHash (hash : Bytes → Bytes) (left right : Bytes) : Bytes := hash (1 :: (left ++ right))

/-- `merkle_root`, at a hash function. -/
def merkleRootOver (hash : Bytes → Bytes) (leaves : List Bytes) : Except PyError Bytes :=
  match (Merkle.reduce (nodeHash hash) leaves.length (leaves.map (leafHash hash))).head? with
  | none => .error (.value "merkle tree needs at least one leaf")
  | some root => .ok root

/-- The root by the recursive definition: a single leaf is hashed, a
longer list is cut at the largest power of two below its length. -/
def recursiveRoot (hash : Bytes → Bytes) (leaves : List Bytes) : Option Bytes :=
  Merkle.splitRoot (leafHash hash) (nodeHash hash) leaves

/-- The node's root is the general one at SHA-256. -/
theorem merkleRoot_eq_over [Library] (leaves : List Bytes) :
    (merkleRoot leaves).map List.Vector.toList =
      merkleRootOver (fun m => (sha256 m).toList) leaves := by
  have hhead : (Merkle.reduce (nodeHash fun m => (sha256 m).toList) leaves.length
      (leaves.map (leafHash fun m => (sha256 m).toList))).head? =
      (Merkle.root sha256 leafMessage nodeMessage leaves).map List.Vector.toList := by
    have hpair : ∀ a b : Digest, (sha256 (nodeMessage a b)).toList =
        nodeHash (fun m => (sha256 m).toList) a.toList b.toList := fun a b => rfl
    rw [Merkle.root, ← List.head?_map, Merkle.map_reduce hpair, List.map_map]
    rfl
  rw [merkleRoot, merkleRootOver, hhead]
  cases Merkle.root sha256 leafMessage nodeMessage leaves with
  | none => rfl
  | some root => rfl

/-- **The bottom-up root is the recursive one**, for every hash function
and every list of leaves that is not empty: the loop ends, with one node
left, and that node is the recursive root. -/
theorem merkleRootOver_eq_recursiveRoot (hash : Bytes → Bytes) {leaves : List Bytes}
    (h : leaves ≠ []) :
    ∃ root, recursiveRoot hash leaves = some root ∧ merkleRootOver hash leaves = .ok root ∧
      ∀ rounds, leaves.length ≤ rounds + 1 →
        Merkle.reduce (nodeHash hash) rounds (leaves.map (leafHash hash)) = [root] := by
  have hne : leaves.map (leafHash hash) ≠ [] := by simpa using h
  have hsplit : recursiveRoot hash leaves =
      Merkle.splitRoot id (nodeHash hash) (leaves.map (leafHash hash)) :=
    Merkle.splitRoot_map _ leaves rfl
  have hloop : ∀ rounds, leaves.length ≤ rounds + 1 →
      ∃ root, recursiveRoot hash leaves = some root ∧
        Merkle.reduce (nodeHash hash) rounds (leaves.map (leafHash hash)) = [root] := by
    intro rounds hrounds
    rw [hsplit]
    exact Merkle.reduce_eq_splitRoot rounds _ hne (by simpa using hrounds)
  obtain ⟨root, hroot, hreduce⟩ := hloop leaves.length (Nat.le_succ _)
  refine ⟨root, hroot, by rw [merkleRootOver, hreduce]; rfl, fun rounds hrounds => ?_⟩
  obtain ⟨root', hroot', hreduce'⟩ := hloop rounds hrounds
  rw [hroot, Option.some.injEq] at hroot'
  rw [hreduce', hroot']

/-- Five leaves: four and one. -/
theorem merkleRootOver_eq_recursiveRoot_five :
    ∃ root, recursiveRoot id [[1], [2], [3], [4], [5]] = some root ∧
      merkleRootOver id [[1], [2], [3], [4], [5]] = .ok root := by
  obtain ⟨root, hroot, hover, -⟩ :=
    merkleRootOver_eq_recursiveRoot id (List.cons_ne_nil [1] [[2], [3], [4], [5]])
  exact ⟨root, hroot, hover⟩

end TalCash
