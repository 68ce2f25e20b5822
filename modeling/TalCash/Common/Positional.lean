import Mathlib
/-!
# Numbers in positional notation

Digits most significant first. `value` reads a list of digits; `digits`
writes a number without leading zeros, `padded` with leading zeros in
front, `fixed` in a given number of digits. A list of digits is fixed by
its number of leading zeros and its value (`padded_leading_value`), which
is what makes notations in two bases translate into each other without
loss.
-/

namespace Positional

/-- The number a list of digits stands for. -/
def value (b : ℕ) (ds : List ℕ) : ℕ := ds.foldl (fun n d => n * b + d) 0

/-- The digits of a number, without leading zeros. -/
def digits (b n : ℕ) : List ℕ := (Nat.digits b n).reverse

/-- The digits of a number after some leading zeros. -/
def padded (b zeros n : ℕ) : List ℕ := List.replicate zeros 0 ++ digits b n

/-- The number of leading zeros. -/
def leading (ds : List ℕ) : ℕ := (ds.takeWhile (· == 0)).length

/-- A number in `k` digits. -/
def fixed (b k n : ℕ) : List ℕ := (List.range k).map fun i => n / b ^ (k - 1 - i) % b

variable {b : ℕ}

/-! ## Reading -/

theorem value_append_singleton (ds : List ℕ) (d : ℕ) :
    value b (ds ++ [d]) = value b ds * b + d := by
  rw [value, List.foldl_append]
  rfl

/-- A number cut in two. -/
theorem value_append (ds es : List ℕ) :
    value b (ds ++ es) = value b ds * b ^ es.length + value b es := by
  induction es using List.reverseRecOn with
  | nil => simp [value]
  | append_singleton es e ih =>
    rw [← List.append_assoc, value_append_singleton, ih, value_append_singleton,
      List.length_append, List.length_singleton, pow_succ]
    ring

theorem value_eq_ofDigits (ds : List ℕ) : value b ds = Nat.ofDigits b ds.reverse := by
  induction ds using List.reverseRecOn with
  | nil => rfl
  | append_singleton ds d ih =>
    rw [value_append_singleton, List.reverse_append, List.reverse_singleton,
      List.singleton_append, Nat.ofDigits_cons, ih]
    ring

theorem value_lt {ds : List ℕ} (h : ∀ d ∈ ds, d < b) :
    value b ds < b ^ ds.length := by
  induction ds using List.reverseRecOn with
  | nil => exact Nat.one_pos
  | append_singleton ds d ih =>
    have hd := h d (by simp)
    have hds := ih fun x hx => h x (List.mem_append_left _ hx)
    rw [value_append_singleton, List.length_append, List.length_singleton, pow_succ]
    calc value b ds * b + d < value b ds * b + b := by omega
      _ = (value b ds + 1) * b := by ring
      _ ≤ b ^ ds.length * b := Nat.mul_le_mul_right _ hds

theorem value_replicate_zero_append (zeros : ℕ) (ds : List ℕ) :
    value b (List.replicate zeros 0 ++ ds) = value b ds := by
  induction zeros with
  | zero => rfl
  | succ zeros ih =>
    rw [List.replicate_succ, List.cons_append, value, List.foldl_cons, zero_mul, zero_add]
    exact ih

/-! ## Without leading zeros -/

@[simp] theorem digits_zero : digits b 0 = [] := by simp [digits]

theorem digits_lt (hb : 1 < b) {n d : ℕ} (h : d ∈ digits b n) : d < b :=
  Nat.digits_lt_base hb (List.mem_reverse.1 h)

/-- The first digit is not zero. -/
theorem head_digits_ne_zero {n d : ℕ} (h : (digits b n).head? = some d) : d ≠ 0 := by
  rw [digits, List.head?_reverse, List.getLast?_eq_some_iff] at h
  obtain ⟨ds, hds⟩ := h
  have hne : Nat.digits b n ≠ [] := by rw [hds]; simp
  have hlast := Nat.getLast_digit_ne_zero b (m := n) fun hz => hne (by rw [hz]; simp)
  simpa [hds] using hlast

theorem value_digits (n : ℕ) : value b (digits b n) = n := by
  rw [value_eq_ofDigits, digits, List.reverse_reverse, Nat.ofDigits_digits]

theorem digits_value (hb : 1 < b) {ds : List ℕ} (h : ∀ d ∈ ds, d < b)
    (hhead : ∀ d, ds.head? = some d → d ≠ 0) : digits b (value b ds) = ds := by
  rw [value_eq_ofDigits, digits, Nat.digits_ofDigits b hb, List.reverse_reverse]
  · exact fun d hd => h d (List.mem_reverse.1 hd)
  · intro hne
    refine hhead _ ?_
    rw [← List.getLast?_reverse, List.getLast?_eq_some_getLast]

theorem length_digits_le (hb : 1 < b) {n k : ℕ} (h : n < b ^ k) : (digits b n).length ≤ k := by
  rw [digits, List.length_reverse]
  exact (Nat.digits_length_le_iff hb n).2 h

/-! ## Leading zeros -/

theorem replicate_leading_append (ds : List ℕ) :
    List.replicate (leading ds) 0 ++ ds.dropWhile (· == 0) = ds := by
  have hzeros : ds.takeWhile (· == 0) = List.replicate (leading ds) 0 :=
    List.eq_replicate_iff.2 ⟨rfl, fun d hd => by simpa using List.mem_takeWhile_imp hd⟩
  rw [← hzeros, List.takeWhile_append_dropWhile]

theorem leading_padded (zeros n : ℕ) : leading (padded b zeros n) = zeros := by
  have htail : (digits b n).takeWhile (· == 0) = [] := by
    rcases hd : digits b n with _ | ⟨d, ds⟩
    · rfl
    · have hne : d ≠ 0 := head_digits_ne_zero (b := b) (n := n) (by rw [hd]; rfl)
      simp [hne]
  rw [leading, padded, List.takeWhile_append_of_pos (by simp), htail]
  simp

theorem value_padded (zeros n : ℕ) : value b (padded b zeros n) = n := by
  rw [padded, value_replicate_zero_append, value_digits]

theorem padded_lt (hb : 1 < b) {zeros n d : ℕ} (h : d ∈ padded b zeros n) : d < b := by
  rcases List.mem_append.1 h with h | h
  · rw [List.eq_of_mem_replicate h]
    omega
  · exact digits_lt hb h

/-- **Leading zeros and value fix the digits.** -/
theorem padded_leading_value (hb : 1 < b) {ds : List ℕ} (h : ∀ d ∈ ds, d < b) :
    padded b (leading ds) (value b ds) = ds := by
  have hsplit := replicate_leading_append ds
  have hvalue : value b ds = value b (ds.dropWhile (· == 0)) := by
    conv_lhs => rw [← hsplit, value_replicate_zero_append]
  have hhead : ∀ d, (ds.dropWhile (· == 0)).head? = some d → d ≠ 0 := by
    intro d hd hz
    have := List.head?_dropWhile_not (· == 0) ds
    simp [hd, hz] at this
  have hlt : ∀ d ∈ ds.dropWhile (· == 0), d < b :=
    fun d hd => h d ((List.dropWhile_sublist _).subset hd)
  rw [padded, hvalue, digits_value hb hlt hhead, hsplit]

/-! ## A fixed number of digits -/

theorem length_fixed (k n : ℕ) : (fixed b k n).length = k := by simp [fixed]

theorem fixed_lt (hb : 0 < b) {k n d : ℕ} (h : d ∈ fixed b k n) : d < b := by
  obtain ⟨i, -, rfl⟩ := List.mem_map.1 h
  exact Nat.mod_lt _ hb

theorem fixed_succ (k n : ℕ) : fixed b (k + 1) n = fixed b k (n / b) ++ [n % b] := by
  rw [fixed, List.range_succ, List.map_append, List.map_singleton]
  congr 1
  · refine List.map_congr_left fun i hi => ?_
    have hexp : k + 1 - 1 - i = k - 1 - i + 1 := by
      have := List.mem_range.1 hi
      omega
    rw [hexp, pow_succ', Nat.div_div_eq_div_mul]
  · simp

/-- What a fixed number of digits reads back. -/
theorem value_fixed {k : ℕ} : ∀ {n : ℕ}, n < b ^ k → value b (fixed b k n) = n := by
  induction k with
  | zero =>
    intro n h
    rw [pow_zero] at h
    obtain rfl : n = 0 := by omega
    rfl
  | succ k ih =>
    intro n h
    have hq : n / b < b ^ k := Nat.div_lt_of_lt_mul (by rwa [← pow_succ'])
    rw [fixed_succ, value_append_singleton, ih hq, mul_comm, Nat.div_add_mod]

theorem fixed_value {ds : List ℕ} (h : ∀ d ∈ ds, d < b) : fixed b ds.length (value b ds) = ds := by
  induction ds using List.reverseRecOn with
  | nil => rfl
  | append_singleton ds d ih =>
    have hd := h d (by simp)
    have hds := ih fun x hx => h x (List.mem_append_left _ hx)
    have hdiv : (value b ds * b + d) / b = value b ds := by
      rw [add_comm, Nat.add_mul_div_right _ _ (by omega), Nat.div_eq_of_lt hd, zero_add]
    have hmod : (value b ds * b + d) % b = d := by
      rw [add_comm, Nat.add_mul_mod_self_right, Nat.mod_eq_of_lt hd]
    rw [List.length_append, List.length_singleton, fixed_succ, value_append_singleton, hdiv, hmod,
      hds]

/-! ## Alphabets -/

/-- The index of a symbol of an alphabet without repetitions. -/
theorem idxOf_getD {α : Type*} [BEq α] [LawfulBEq α] {alphabet : List α} (hnd : alphabet.Nodup)
    {i : ℕ} (h : i < alphabet.length) (default : α) :
    alphabet.getD i default ∈ alphabet ∧ alphabet.idxOf (alphabet.getD i default) = i := by
  rw [List.getD_eq_getElem _ _ h]
  exact ⟨List.getElem_mem h, hnd.idxOf_getElem i h⟩

/-- The symbol at the index of a symbol. -/
theorem getD_idxOf {α : Type*} [BEq α] [LawfulBEq α] {alphabet : List α} {a : α} (h : a ∈ alphabet)
    (default : α) :
    alphabet.idxOf a < alphabet.length ∧ alphabet.getD (alphabet.idxOf a) default = a := by
  have hlt : alphabet.idxOf a < alphabet.length := List.idxOf_lt_length_iff.2 h
  rw [List.getD_eq_getElem _ _ hlt]
  exact ⟨hlt, List.getElem_idxOf hlt⟩

end Positional
