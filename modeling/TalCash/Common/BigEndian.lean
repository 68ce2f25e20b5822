import Mathlib
/-!
# Big-endian integers

`beBytes k n` writes `n` in `k` bytes, most significant first, and
`beNat` reads any byte list back. Within the width the two are inverse
to each other in both directions.
-/

/-- Byte strings. -/
abbrev Bytes := List UInt8

namespace BigEndian

/-- `n.to_bytes(k, "big")`, of the last `k` bytes of `n`. -/
def beBytes : ℕ → ℕ → Bytes
  | 0, _ => []
  | k + 1, n => beBytes k (n / 256) ++ [UInt8.ofNat (n % 256)]

/-- `int.from_bytes(b, "big")`. -/
def beNat (b : Bytes) : ℕ := b.foldl (fun n x => n * 256 + x.toNat) 0

@[simp] theorem length_beBytes (k n : ℕ) : (beBytes k n).length = k := by
  induction k generalizing n with
  | zero => rfl
  | succ k ih => simp only [beBytes, List.length_append, ih, List.length_singleton]

theorem beNat_nil : beNat [] = 0 := rfl

theorem beNat_append_singleton (b : Bytes) (x : UInt8) :
    beNat (b ++ [x]) = beNat b * 256 + x.toNat := by
  simp only [beNat, List.foldl_append, List.foldl_cons, List.foldl_nil]

theorem toNat_ofNat_mod (n : ℕ) : (UInt8.ofNat (n % 256)).toNat = n % 256 := by
  rw [UInt8.toNat_ofNat']
  omega

/-- Reading what was written, where the number fits. -/
theorem beNat_beBytes {k n : ℕ} (h : n < 256 ^ k) : beNat (beBytes k n) = n := by
  induction k generalizing n with
  | zero =>
    have : n = 0 := by simpa using h
    subst this; rfl
  | succ k ih =>
    have hq : n / 256 < 256 ^ k := by
      rw [pow_succ] at h
      exact Nat.div_lt_of_lt_mul (by omega)
    rw [beBytes, beNat_append_singleton, ih hq, toNat_ofNat_mod]
    omega

/-- What `k` bytes hold is below `256 ^ k`. -/
theorem beNat_lt (b : Bytes) : beNat b < 256 ^ b.length := by
  induction b using List.reverseRecOn with
  | nil => exact Nat.one_pos
  | append_singleton b x ih =>
    have hx : x.toNat < 256 := x.toNat_lt
    rw [beNat_append_singleton, List.length_append, List.length_singleton, pow_succ]
    omega

/-- Writing what was read, at the length read. -/
theorem beBytes_beNat (b : Bytes) : beBytes b.length (beNat b) = b := by
  induction b using List.reverseRecOn with
  | nil => rfl
  | append_singleton b x ih =>
    have hx : x.toNat < 256 := x.toNat_lt
    have hq : (beNat b * 256 + x.toNat) / 256 = beNat b := by omega
    have hr : (beNat b * 256 + x.toNat) % 256 = x.toNat := by omega
    rw [beNat_append_singleton, List.length_append, List.length_singleton, beBytes, hq, hr, ih,
      UInt8.ofNat_toNat]

theorem beBytes_injective {k m n : ℕ} (hm : m < 256 ^ k) (hn : n < 256 ^ k)
    (h : beBytes k m = beBytes k n) : m = n := by
  rw [← beNat_beBytes hm, ← beNat_beBytes hn, h]

end BigEndian
