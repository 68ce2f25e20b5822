import TalCash.Core.Genesis
/-!
# A small instance

Library functions that are easy to compute with and a network with small
parameters, for results about one run: SHA-256 is a polynomial hash, a
packed stream writes each byte behind a mark, and every signature and
proof of work is good.
-/

namespace TalCash

open BigEndian

namespace Sample

/-- A polynomial of the bytes. -/
def polynomial (b : Bytes) : ℕ := b.foldl (fun h x => (h * 257 + x.toNat + 1) % 2 ^ 256) 0

theorem polynomial_lt (b : Bytes) : polynomial b < 256 ^ 32 := by
  unfold polynomial
  induction b using List.reverseRecOn with
  | nil => decide
  | append_singleton b x _ =>
    rw [List.foldl_append]
    exact Nat.mod_lt _ (by decide)

/-- A polynomial hash. -/
def hash (b : Bytes) : Digest := ⟨beBytes 32 (polynomial b), length_beBytes _ _⟩

theorem polynomial_eq_of_hash_eq {a b : Bytes} (h : hash a = hash b) :
    polynomial a = polynomial b := by
  have hv : (hash a).1 = (hash b).1 := by rw [h]
  exact beBytes_injective (polynomial_lt a) (polynomial_lt b) hv

/-- Every byte behind a mark, then the end. -/
def pack (b : Bytes) : Bytes := b.flatMap (fun x => [1, x]) ++ [0]

def unpack : Bytes → Inflated
  | 1 :: x :: rest =>
    let r := unpack rest
    ⟨x :: r.raw, r.ending⟩
  | [0] => ⟨[], .complete⟩
  | _ => ⟨[], .elsewhere⟩

theorem unpack_pack (b : Bytes) : unpack (pack b) = ⟨b, .complete⟩ := by
  induction b with
  | nil => rfl
  | cons x b ih =>
    have hcons : pack (x :: b) = 1 :: x :: pack b := rfl
    rw [hcons, unpack, ih]

theorem unpack_append (a b : Bytes) (h : (unpack a).ending = .complete)
    (h' : (unpack (a ++ b)).ending = .complete) : b = [] := by
  induction a using unpack.induct with
  | case1 x rest ih => exact ih h h'
  | case2 =>
    cases b with
    | nil => rfl
    | cons y b => simp [unpack] at h'
  | case3 a h₁ h₂ => simp [unpack] at h

theorem length_pack (b : Bytes) : (pack b).length = 2 * b.length + 1 := by
  induction b with
  | nil => rfl
  | cons x b ih =>
    have hcons : pack (x :: b) = 1 :: x :: pack b := rfl
    rw [hcons, List.length_cons, List.length_cons, ih, List.length_cons]
    omega

/-- The instance. -/
@[reducible] def primitives : Primitives where
  sha256 := hash
  argon2id _ _ := zeroBytes 32
  verifySignature _ _ _ := true
  deflate := pack
  inflate := unpack
  inflate_deflate := unpack_pack
  inflate_append := unpack_append
  length_deflate b h := by
    rw [length_pack]
    omega

/-- Its genesis fields. -/
def genesis : GenesisFields where
  timestamp := 0
  nonce := 0
  timestamp_lt := by decide
  message_le := by decide
  nonce_lt := by decide

/-- A network that seals chunks of two blocks. -/
def params : NetworkParams :=
  { mainnet genesis with
    name := "sample"
    networkId := 9
    pow := { memoryKib := 8, iterations := 1, salt := [] }
    powLimit := 2 ^ 255
    genesisTarget := 2 ^ 255
    powNoRetarget := true
    finalityDepth := 2
    chunkSize := 2
    snapshotDelay := 1
    chunkSize_ge := by decide
    snapshotDelay_lt := by decide
    networkId_lt := by decide
    genesisTarget_pos := by decide
    genesisTarget_le := by decide
    powLimit_lt := by decide
    finalityDepth_pos := by decide
    chunkSize_mul_le := by decide
    finalityDepth_mul_le := by decide }

/-- The coinbase of a height. -/
def coinbase (height : ℕ) : Coinbase where
  networkId := params.networkId
  height := height % 256 ^ 8
  address := zeroBytes 21
  amount := params.blockReward
  networkId_lt := by decide
  height_lt := Nat.mod_lt _ (by decide)
  amount_lt := by decide
  memo_lt := by decide

attribute [local instance] primitives

/-- The state root where nobody owns anything. -/
def emptyRoot : Digest := (stateRoot []).toOption.getD (zeroBytes 32)

/-- SHA-256 has no collision in a list of messages that was searched:
messages with one hash are compared by their lengths and their values. -/
theorem collisionFree {S : Set Bytes} {l : List Bytes} (hS : ∀ m ∈ S, m ∈ l)
    (h : l.all fun a => l.all fun b =>
      polynomial a ≠ polynomial b || (a.length = b.length && beNat a = beNat b)) :
    CollisionFree S := by
  intro a ha b hb he
  have := List.all_eq_true.1 (List.all_eq_true.1 h a (hS a ha)) b (hS b hb)
  simp only [polynomial_eq_of_hash_eq he, ne_eq, not_true_eq_false, decide_false, Bool.false_or,
    Bool.and_eq_true, decide_eq_true_eq] at this
  rw [← beBytes_beNat a, ← beBytes_beNat b, this.1, this.2]

/-- A block with these transactions on top of another. -/
def blockWith (transactions : List Transaction) (parent : Block) (snapshotRoot : Digest)
    (timestamp nonce target : ℕ) : Block where
  header :=
    { version := BLOCK_VERSION
      height := (parent.height + 1) % 256 ^ 8
      prevId := parent.blockId
      merkleRoot := (computeMerkleRoot transactions).toOption.getD (zeroBytes 32)
      snapshotRoot := snapshotRoot
      timestamp := timestamp % 256 ^ 8
      target := target % 256 ^ 32
      nonce := nonce % 256 ^ 8
      version_lt := BLOCK_VERSION_lt
      height_lt := Nat.mod_lt _ (by decide)
      timestamp_lt := Nat.mod_lt _ (by decide)
      target_lt := Nat.mod_lt _ (by decide)
      nonce_lt := Nat.mod_lt _ (by decide) }
  transactions := transactions.take (256 ^ 4 - 1)
  count_lt := lt_of_le_of_lt (List.length_take_le _ _) (by decide)

/-- A block with only its coinbase on top of another. -/
def block (parent : Block) (snapshotRoot : Digest) (timestamp nonce target : ℕ) : Block :=
  blockWith [.coinbase (coinbase (parent.height + 1))] parent snapshotRoot timestamp nonce target

end Sample

end TalCash
