import TalCash.Core.Block
/-!
# Difficulty, work and the median of timestamps

The ASERT rule on integers, the work of a target and the median the
timestamp rule compares with. Targets stay between `1` and the network's
limit, whatever the timestamps (`nextTarget_pos`, `nextTarget_le`).
-/

namespace TalCash

/-- `_RADIX`: exponents are fixed-point numbers of 16 fractional bits. -/
def RADIX : ℕ := 2 ^ 16

/-- The factor `2 ^ (frac / RADIX)`, by a cubic approximation. -/
def asertFactor (frac : ℕ) : ℕ :=
  RADIX + (195766423245049 * frac + 971821376 * frac ^ 2 + 5127 * frac ^ 3 + 2 ^ 47) / 2 ^ 48

/-- `asert_target`: the target for the block that extends the parent. -/
def asertTarget (anchorTarget : ℕ) (anchorTimestamp anchorHeight parentTimestamp parentHeight : ℤ)
    (spacing halfLife powLimit : ℕ) : ℕ :=
  let timeDelta := parentTimestamp - anchorTimestamp
  let heightDelta := parentHeight - anchorHeight
  let exponent : ℤ := ((timeDelta - spacing * heightDelta) * RADIX).fdiv halfLife
  let shifts : ℤ := exponent.fdiv RADIX
  let frac : ℕ := (exponent - shifts * RADIX).toNat
  if 256 < shifts then powLimit
  else if shifts < -512 then 1
  else
    let target := anchorTarget * asertFactor frac
    let target := if 0 ≤ shifts then target * 2 ^ shifts.toNat else target / 2 ^ (-shifts).toNat
    max 1 (min (target / RADIX) powLimit)

/-- `next_target`. -/
def nextTarget (params : NetworkParams) (genesis parent : BlockHeader) : ℕ :=
  if params.powNoRetarget then params.genesisTarget
  else
    asertTarget genesis.target genesis.timestamp genesis.height parent.timestamp parent.height
      params.targetSpacing params.asertHalfLife params.powLimit

theorem asertTarget_mem {a f g : ℕ} {b c d e : ℤ} {limit : ℕ} (h : 0 < limit) :
    0 < asertTarget a b c d e f g limit ∧ asertTarget a b c d e f g limit ≤ limit := by
  unfold asertTarget
  dsimp only
  split
  · exact ⟨h, le_rfl⟩
  split
  · exact ⟨one_pos, h⟩
  · exact ⟨lt_of_lt_of_le one_pos (le_max_left _ _), max_le h (min_le_right _ _)⟩

variable (params : NetworkParams) (genesis parent : BlockHeader)

theorem NetworkParams.powLimit_pos : 0 < params.powLimit :=
  lt_of_lt_of_le params.genesisTarget_pos params.genesisTarget_le

theorem nextTarget_pos : 0 < nextTarget params genesis parent := by
  unfold nextTarget
  split
  · exact params.genesisTarget_pos
  · exact (asertTarget_mem params.powLimit_pos).1

theorem nextTarget_le : nextTarget params genesis parent ≤ params.powLimit := by
  unfold nextTarget
  split
  · exact params.genesisTarget_le
  · exact (asertTarget_mem params.powLimit_pos).2

/-- `block_work`: the hashes needed on average at a target. -/
def blockWork (target : ℕ) : ℕ := 2 ^ 256 / (target + 1)

/-- Every block adds work. -/
theorem blockWork_pos {target : ℕ} (h : target < 2 ^ 256) : 0 < blockWork target :=
  Nat.div_pos h (Nat.succ_pos _)

theorem blockWork_le (target : ℕ) : blockWork target ≤ 2 ^ 256 := Nat.div_le_self _ _

/-- `median_time_past`. -/
def medianTimePast (timestamps : List ℕ) : Except PyError ℕ :=
  let ordered := timestamps.insertionSort (· ≤ ·)
  match ordered[ordered.length / 2]? with
  | none => .error .index
  | some t => .ok t

theorem medianTimePast_isOk {timestamps : List ℕ} (h : timestamps ≠ []) :
    ∃ t, medianTimePast timestamps = .ok t := by
  have hpos := List.length_pos_iff.2 h
  have hlt : (timestamps.insertionSort (· ≤ ·)).length / 2 <
      (timestamps.insertionSort (· ≤ ·)).length := by
    rw [List.length_insertionSort]; omega
  exact ⟨_, by rw [medianTimePast, List.getElem?_eq_getElem hlt]⟩

end TalCash
