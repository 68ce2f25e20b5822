import TalCash.Core.Difficulty
/-!
# The difficulty rule on all integers

`asertFormula` is the target `asertTarget` computes where it neither
returns early nor clamps: the anchor's target times a factor for the
fractional part of the exponent, shifted by the whole part. It is
monotone in the exponent, also where one power of two ends and the next
begins (`asertScaled_mono`), and the early returns and the clamp are one
clamp of it (`asertTarget_eq_clamp`).
-/

namespace TalCash

/-! ## The factor within one power of two -/

theorem asertFactor_mono : Monotone asertFactor := by
  intro a b h
  unfold asertFactor
  gcongr

theorem asertFactor_zero : asertFactor 0 = RADIX := by decide

/-- At its end the cubic has not passed the next power of two. -/
theorem asertFactor_le {frac : ℕ} (h : frac < RADIX) : asertFactor frac ≤ 2 * RADIX := by
  have hlast : asertFactor (RADIX - 1) ≤ 2 * RADIX := by decide
  exact (asertFactor_mono (by omega)).trans hlast

theorem radix_le_asertFactor (frac : ℕ) : RADIX ≤ asertFactor frac := Nat.le_add_right _ _

/-! ## Shifts in both directions -/

/-- `target << shifts if shifts >= 0 else target >> -shifts`. -/
def shifted (target : ℕ) (shifts : ℤ) : ℕ :=
  if 0 ≤ shifts then target * 2 ^ shifts.toNat else target / 2 ^ (-shifts).toNat

/-- Both directions are one division, with room enough below. -/
theorem shifted_eq (target room : ℕ) {shifts : ℤ} (h : 0 ≤ shifts + room) :
    shifted target shifts = target * 2 ^ (shifts + room).toNat / 2 ^ room := by
  unfold shifted
  split
  · have hsum : (shifts + room).toNat = shifts.toNat + room := by omega
    rw [hsum, pow_add, ← mul_assoc, Nat.mul_div_cancel _ (Nat.two_pow_pos room)]
  · have hroom : room = (-shifts).toNat + (shifts + room).toNat := by omega
    -- the denominator shifts twice: once for the shift and once for the numerator's room
    conv_rhs => rw [hroom, pow_add, ← hroom]
    rw [Nat.mul_div_mul_right _ _ (Nat.two_pow_pos _)]

theorem shifted_mono {a b : ℕ} (h : a ≤ b) (shifts : ℤ) : shifted a shifts ≤ shifted b shifts := by
  unfold shifted
  split
  · exact Nat.mul_le_mul_right _ h
  · exact Nat.div_le_div_right h

/-- One more shift doubles what is shifted. -/
theorem shifted_succ (target : ℕ) (shifts : ℤ) :
    shifted target (shifts + 1) = shifted (2 * target) shifts := by
  have hroom : 0 ≤ shifts + (shifts.natAbs : ℕ) := by omega
  have hnext : (shifts + 1 + (shifts.natAbs : ℕ)).toNat =
      (shifts + (shifts.natAbs : ℕ)).toNat + 1 := by
    omega
  rw [shifted_eq target shifts.natAbs (by omega), shifted_eq (2 * target) _ hroom, hnext, pow_succ]
  congr 1
  ring

/-- Twice a number over a divisor is twice its quotient, or one more. -/
theorem two_mul_div (n : ℕ) {d : ℕ} (hd : 0 < d) :
    2 * n / d = 2 * (n / d) ∨ 2 * n / d = 2 * (n / d) + 1 := by
  have hn := Nat.div_add_mod n d
  have hr := Nat.mod_lt n hd
  have hlow : 2 * (n / d) ≤ 2 * n / d := by
    rw [Nat.le_div_iff_mul_le hd]
    generalize n / d = q, n % d = r at hn hr
    linarith
  have hhigh : 2 * n / d < 2 * (n / d) + 2 := by
    rw [Nat.div_lt_iff_lt_mul hd]
    generalize n / d = q, n % d = r at hn hr
    linarith
  omega

/-- One more shift doubles what a shift and a division give, up to the
bit that comes in. -/
theorem shifted_succ_div (target : ℕ) (shifts : ℤ) :
    shifted target (shifts + 1) / RADIX = 2 * (shifted target shifts / RADIX) ∨
      shifted target (shifts + 1) / RADIX = 2 * (shifted target shifts / RADIX) + 1 := by
  have hroom : 0 ≤ shifts + (shifts.natAbs : ℕ) := by omega
  have hpos : 0 < 2 ^ shifts.natAbs * RADIX := Nat.mul_pos (Nat.two_pow_pos _) (by decide)
  rw [shifted_succ, shifted_eq (2 * target) _ hroom, shifted_eq target _ hroom,
    Nat.div_div_eq_div_mul, Nat.div_div_eq_div_mul, mul_assoc]
  exact two_mul_div _ hpos

/-! ## The formula without early returns and clamps -/

/-- The target at an exponent, before it is clamped. -/
def asertScaled (anchorTarget : ℕ) (exponent : ℤ) : ℕ :=
  let shifts := exponent.fdiv RADIX
  let frac := (exponent - shifts * RADIX).toNat
  shifted (anchorTarget * asertFactor frac) shifts / RADIX

/-- How far the chain is behind its schedule, in half-lives of 16
fractional bits. -/
def asertExponent (anchorTimestamp anchorHeight parentTimestamp parentHeight : ℤ)
    (spacing halfLife : ℕ) : ℤ :=
  ((parentTimestamp - anchorTimestamp - spacing * (parentHeight - anchorHeight)) * RADIX).fdiv
    halfLife

/-- The formula of `asertTarget`, without its early returns and its clamp. -/
def asertFormula (anchorTarget : ℕ) (anchorTimestamp anchorHeight parentTimestamp parentHeight : ℤ)
    (spacing halfLife : ℕ) : ℕ :=
  asertScaled anchorTarget
    (asertExponent anchorTimestamp anchorHeight parentTimestamp parentHeight spacing halfLife)

theorem fdiv_split (shifts : ℤ) {frac : ℕ} (h : frac < RADIX) :
    (shifts * RADIX + frac : ℤ).fdiv RADIX = shifts := by
  have hpos : (0 : ℤ) < RADIX := by decide
  rw [Int.fdiv_eq_ediv_of_nonneg _ hpos.le, add_comm, Int.add_mul_ediv_right _ _ hpos.ne',
    Int.ediv_eq_zero_of_lt (by omega) (by exact_mod_cast h), zero_add]

theorem asertScaled_split (anchorTarget : ℕ) (shifts : ℤ) {frac : ℕ} (h : frac < RADIX) :
    asertScaled anchorTarget (shifts * RADIX + frac) =
      shifted (anchorTarget * asertFactor frac) shifts / RADIX := by
  have hfrac : (shifts * RADIX + frac - shifts * RADIX : ℤ).toNat = frac := by omega
  rw [asertScaled, fdiv_split shifts h, hfrac]

/-- An exponent is whole shifts and a fraction. -/
theorem exponent_split (exponent : ℤ) :
    ∃ (shifts : ℤ) (frac : ℕ), frac < RADIX ∧ exponent = shifts * RADIX + frac := by
  have hpos : (0 : ℤ) < RADIX := by decide
  have hdiv := Int.mul_ediv_add_emod exponent RADIX
  have h0 := Int.emod_nonneg exponent hpos.ne'
  have hlt := Int.emod_lt_of_pos exponent hpos
  refine ⟨exponent / RADIX, (exponent % RADIX).toNat, by omega, ?_⟩
  rw [Int.toNat_of_nonneg h0, mul_comm]
  exact hdiv.symm

/-- **The formula is monotone in the exponent.** Within a power of two
the cubic is; at the seam the factor has at most doubled when the shift
doubles it. -/
theorem asertScaled_mono (anchorTarget : ℕ) : Monotone (asertScaled anchorTarget) := by
  refine monotone_int_of_le_succ fun exponent => ?_
  obtain ⟨shifts, frac, hfrac, rfl⟩ := exponent_split exponent
  rw [asertScaled_split anchorTarget shifts hfrac]
  by_cases hnext : frac + 1 < RADIX
  · have hsum : (shifts * RADIX + frac + 1 : ℤ) = shifts * RADIX + (frac + 1 : ℕ) := by
      push_cast; ring
    rw [hsum, asertScaled_split anchorTarget shifts hnext]
    refine Nat.div_le_div_right (shifted_mono (Nat.mul_le_mul_left _ ?_) shifts)
    exact asertFactor_mono (Nat.le_succ frac)
  · have hseam : frac + 1 = RADIX := by omega
    have hsum : (shifts * RADIX + frac + 1 : ℤ) = (shifts + 1) * RADIX + (0 : ℕ) := by
      push_cast [← hseam]; ring
    rw [hsum, asertScaled_split anchorTarget _ (by decide), shifted_succ, asertFactor_zero]
    refine Nat.div_le_div_right (shifted_mono ?_ shifts)
    have hle := Nat.mul_le_mul_left anchorTarget (asertFactor_le hfrac)
    linarith

/-- A whole shift of the exponent doubles the formula, up to one. -/
theorem asertScaled_add_radix (anchorTarget : ℕ) (exponent : ℤ) :
    asertScaled anchorTarget (exponent + RADIX) = 2 * asertScaled anchorTarget exponent ∨
      asertScaled anchorTarget (exponent + RADIX) = 2 * asertScaled anchorTarget exponent + 1 := by
  obtain ⟨shifts, frac, hfrac, rfl⟩ := exponent_split exponent
  have hsum : (shifts * RADIX + frac + RADIX : ℤ) = (shifts + 1) * RADIX + frac := by ring
  rw [hsum, asertScaled_split anchorTarget _ hfrac, asertScaled_split anchorTarget _ hfrac]
  exact shifted_succ_div _ shifts

/-! ## The rule is the clamped formula -/

/-- Beyond the highest shift the formula is above every target. -/
theorem two_pow_le_asertScaled {anchorTarget : ℕ} (ha : 0 < anchorTarget) {exponent : ℤ}
    (h : 256 < exponent.fdiv RADIX) : 2 ^ 256 ≤ asertScaled anchorTarget exponent := by
  obtain ⟨shifts, frac, hfrac, rfl⟩ := exponent_split exponent
  rw [fdiv_split shifts hfrac] at h
  rw [asertScaled_split anchorTarget shifts hfrac, shifted, if_pos (by omega),
    Nat.le_div_iff_mul_le (by decide)]
  have hpow : 2 ^ 256 ≤ 2 ^ shifts.toNat := Nat.pow_le_pow_right two_pos (by omega)
  calc 2 ^ 256 * RADIX = 1 * RADIX * 2 ^ 256 := by ring
    _ ≤ anchorTarget * asertFactor frac * 2 ^ shifts.toNat :=
        Nat.mul_le_mul (Nat.mul_le_mul ha (radix_le_asertFactor frac)) hpow

/-- Below the lowest shift nothing is left of the anchor's target. -/
theorem asertScaled_eq_zero {anchorTarget : ℕ} (ha : anchorTarget < 2 ^ 256) {exponent : ℤ}
    (h : exponent.fdiv RADIX < -512) : asertScaled anchorTarget exponent = 0 := by
  obtain ⟨shifts, frac, hfrac, rfl⟩ := exponent_split exponent
  rw [fdiv_split shifts hfrac] at h
  rw [asertScaled_split anchorTarget shifts hfrac, shifted, if_neg (by omega),
    Nat.div_div_eq_div_mul]
  obtain ⟨k, hk⟩ := Nat.exists_eq_add_of_le (show 256 ≤ (-shifts).toNat by omega)
  have hpow : 2 ≤ 2 ^ k := by
    calc 2 = 2 ^ 1 := (pow_one 2).symm
      _ ≤ 2 ^ k := Nat.pow_le_pow_right two_pos (by omega)
  refine Nat.div_eq_of_lt ?_
  calc anchorTarget * asertFactor frac
      ≤ anchorTarget * (2 * RADIX) := Nat.mul_le_mul_left _ (asertFactor_le hfrac)
    _ < 2 ^ 256 * (2 * RADIX) := Nat.mul_lt_mul_of_pos_right ha (by decide)
    _ ≤ 2 ^ 256 * (2 ^ k * RADIX) := Nat.mul_le_mul_left _ (Nat.mul_le_mul_right _ hpow)
    _ = 2 ^ (-shifts).toNat * RADIX := by rw [hk, pow_add, mul_assoc]

section

variable {anchorTarget spacing halfLife powLimit : ℕ} {anchorTimestamp anchorHeight : ℤ}

/-- **The early returns are the clamp.** -/
theorem asertTarget_eq_clamp (ha : 0 < anchorTarget) (ha' : anchorTarget < 2 ^ 256)
    (hl : 0 < powLimit) (hl' : powLimit < 2 ^ 256) (parentTimestamp parentHeight : ℤ) :
    asertTarget anchorTarget anchorTimestamp anchorHeight parentTimestamp parentHeight spacing
        halfLife powLimit =
      max 1 (min (asertFormula anchorTarget anchorTimestamp anchorHeight parentTimestamp
        parentHeight spacing halfLife) powLimit) := by
  unfold asertTarget asertFormula
  set exponent := asertExponent anchorTimestamp anchorHeight parentTimestamp parentHeight spacing
    halfLife with hexp
  rw [asertExponent] at hexp
  simp only [← hexp]
  split
  · -- a chain stalled for years
    rename_i hhigh
    have hle := two_pow_le_asertScaled ha hhigh
    omega
  split
  · -- a chain years ahead
    rename_i hlow
    rw [asertScaled_eq_zero ha' hlow]
    omega
  · rfl

theorem asertExponent_mono_timestamp (hspan : 0 < halfLife) (parentHeight : ℤ) :
    Monotone fun parentTimestamp =>
      asertExponent anchorTimestamp anchorHeight parentTimestamp parentHeight spacing halfLife := by
  intro t t' h
  have hradix : (0 : ℤ) ≤ RADIX := by decide
  simp only [asertExponent, Int.fdiv_eq_ediv_of_nonneg _ (Int.natCast_nonneg halfLife)]
  exact Int.ediv_le_ediv (by omega) (mul_le_mul_of_nonneg_right (by omega) hradix)

theorem asertExponent_anti_height (hspan : 0 < halfLife) (parentTimestamp : ℤ) :
    Antitone fun parentHeight =>
      asertExponent anchorTimestamp anchorHeight parentTimestamp parentHeight spacing halfLife := by
  intro k k' h
  have hradix : (0 : ℤ) ≤ RADIX := by decide
  have hspacing : (spacing : ℤ) * (k - anchorHeight) ≤ spacing * (k' - anchorHeight) :=
    mul_le_mul_of_nonneg_left (by omega) (Int.natCast_nonneg spacing)
  simp only [asertExponent, Int.fdiv_eq_ediv_of_nonneg _ (Int.natCast_nonneg halfLife)]
  exact Int.ediv_le_ediv (by omega) (mul_le_mul_of_nonneg_right (by omega) hradix)

/-- A half-life later the exponent is one whole shift higher. -/
theorem asertExponent_add_halfLife (hspan : 0 < halfLife) (parentTimestamp parentHeight : ℤ) :
    asertExponent anchorTimestamp anchorHeight (parentTimestamp + halfLife) parentHeight spacing
        halfLife =
      asertExponent anchorTimestamp anchorHeight parentTimestamp parentHeight spacing halfLife +
        RADIX := by
  have hne : (halfLife : ℤ) ≠ 0 := by omega
  simp only [asertExponent, Int.fdiv_eq_ediv_of_nonneg _ (Int.natCast_nonneg halfLife)]
  rw [← Int.add_mul_ediv_right _ _ hne]
  congr 1
  ring

end

/-! ## The rule of a network -/

/-- What the difficulty rule of a chain is fixed by, in its ranges. -/
structure AsertRule where
  anchorTarget : ℕ
  anchorTimestamp : ℤ
  anchorHeight : ℤ
  spacing : ℕ
  halfLife : ℕ
  powLimit : ℕ
  anchorTarget_mem : 1 ≤ anchorTarget ∧ anchorTarget < 2 ^ 256
  powLimit_mem : 1 ≤ powLimit ∧ powLimit < 2 ^ 256
  one_le_halfLife : 1 ≤ halfLife

namespace AsertRule

variable (r : AsertRule)

/-- The target after a parent. -/
def target (parentTimestamp parentHeight : ℤ) : ℕ :=
  asertTarget r.anchorTarget r.anchorTimestamp r.anchorHeight parentTimestamp parentHeight r.spacing
    r.halfLife r.powLimit

/-- The formula after a parent, not clamped. -/
def formula (parentTimestamp parentHeight : ℤ) : ℕ :=
  asertFormula r.anchorTarget r.anchorTimestamp r.anchorHeight parentTimestamp parentHeight
    r.spacing r.halfLife

/-- The clamp leaves the formula as it is. -/
def Unclamped (parentTimestamp parentHeight : ℤ) : Prop :=
  1 ≤ r.formula parentTimestamp parentHeight ∧ r.formula parentTimestamp parentHeight ≤ r.powLimit

theorem target_eq_clamp (t k : ℤ) : r.target t k = max 1 (min (r.formula t k) r.powLimit) :=
  asertTarget_eq_clamp r.anchorTarget_mem.1 r.anchorTarget_mem.2 r.powLimit_mem.1 r.powLimit_mem.2
    t k

/-- **The difficulty rule is well behaved on all integers**: every target
is between `1` and the limit, so it fits its field and has work; targets
grow with the parent's timestamp and shrink with its height; the early
returns give what the clamped formula gives; and where neither of two
targets is clamped, a half-life between them makes one of them twice the
other, or one more. -/
theorem wellBehaved :
    (∀ t k, 1 ≤ r.target t k ∧ r.target t k ≤ r.powLimit ∧ r.target t k < 256 ^ 32 ∧
      1 ≤ blockWork (r.target t k)) ∧
    (∀ t t' k, t ≤ t' → r.target t k ≤ r.target t' k) ∧
    (∀ t k k', k ≤ k' → r.target t k' ≤ r.target t k) ∧
    (∀ t k, r.target t k = max 1 (min (r.formula t k) r.powLimit)) ∧
    ∀ t k, r.Unclamped t k → r.Unclamped (t + r.halfLife) k →
      r.target (t + r.halfLife) k = 2 * r.target t k ∨
        r.target (t + r.halfLife) k = 2 * r.target t k + 1 := by
  have hclamp := r.target_eq_clamp
  have hhalf := r.one_le_halfLife
  refine ⟨fun t k => ?_, fun t t' k h => ?_, fun t k k' h => ?_, hclamp, fun t k h h' => ?_⟩
  · obtain ⟨hpos, hle⟩ : 1 ≤ r.target t k ∧ r.target t k ≤ r.powLimit :=
      asertTarget_mem r.powLimit_mem.1
    have hlt : r.target t k < 2 ^ 256 := hle.trans_lt r.powLimit_mem.2
    exact ⟨hpos, hle, by norm_num at hlt ⊢; exact hlt, blockWork_pos hlt⟩
  · have hmono : r.formula t k ≤ r.formula t' k :=
      asertScaled_mono _ (asertExponent_mono_timestamp hhalf k h)
    rw [hclamp, hclamp]
    omega
  · have hmono : r.formula t k' ≤ r.formula t k :=
      asertScaled_mono _ (asertExponent_anti_height hhalf t h)
    rw [hclamp, hclamp]
    omega
  · have hdouble : r.formula (t + r.halfLife) k = 2 * r.formula t k ∨
        r.formula (t + r.halfLife) k = 2 * r.formula t k + 1 := by
      simp only [formula, asertFormula, asertExponent_add_halfLife hhalf]
      exact asertScaled_add_radix _ _
    rw [hclamp, hclamp]
    rw [Unclamped] at h h'
    omega

end AsertRule

theorem Sample.anchorTarget_mem : 1 ≤ 2 ^ 220 ∧ 2 ^ 220 < 2 ^ 256 := by norm_num

theorem Sample.powLimit_mem : 1 ≤ 2 ^ 224 ∧ 2 ^ 224 < 2 ^ 256 := by norm_num

/-- One block a minute, a half-life of an hour. -/
def Sample.asertRule : AsertRule :=
  ⟨2 ^ 220, 0, 0, 60, 3600, 2 ^ 224, Sample.anchorTarget_mem, Sample.powLimit_mem,
    Nat.le_add_left 1 3599⟩

/-- One and two hours behind schedule. -/
theorem AsertRule.wellBehaved_sample :
    Sample.asertRule.target (9600 + Sample.asertRule.halfLife) 100 =
        2 * Sample.asertRule.target 9600 100 ∨
      Sample.asertRule.target (9600 + Sample.asertRule.halfLife) 100 =
        2 * Sample.asertRule.target 9600 100 + 1 :=
  (AsertRule.wellBehaved Sample.asertRule).2.2.2.2 9600 100
    ⟨by decide +kernel, by decide +kernel⟩ ⟨by decide +kernel, by decide +kernel⟩

end TalCash
