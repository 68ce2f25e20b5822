import TalCash.Common.Metering
/-!
# Rate limits

`TokenBucket` with exact rationals. What `try_take` grants and what the
messages cost that a peer gets through with `take` are events of a meter
whose level is the bucket's (`metered_grants`, `metered_handled`), which
bounds both (`rate_bounds`).
-/

namespace TalCash

open Metering

structure TokenBucket where
  rate : ℚ
  burst : ℚ
  tokens : ℚ
  updated : ℚ

namespace TokenBucket

/-- `__init__`, with the reading of the clock. -/
def create (rate burst now : ℚ) : TokenBucket := ⟨rate, burst, burst, now⟩

variable (b : TokenBucket)

/-- `_refill`, with the reading of the clock. -/
def refill (now : ℚ) : TokenBucket :=
  { b with tokens := min b.burst (b.tokens + (now - b.updated) * b.rate), updated := now }

/-- `take`: the seconds to wait. -/
def take (now cost : ℚ) : ℚ × TokenBucket :=
  let b := b.refill now
  let b := { b with tokens := b.tokens - cost }
  (if 0 ≤ b.tokens then 0 else -b.tokens / b.rate, b)

/-- `try_take`. -/
def tryTake (now cost : ℚ) : Bool × TokenBucket :=
  let b := b.refill now
  if b.tokens < cost then (false, b) else (true, { b with tokens := b.tokens - cost })

/-! ## Calls -/

/-- A call of one of the two methods, with the reading of the clock. -/
inductive Call
  | take (now cost : ℚ)
  | tryTake (now cost : ℚ)

namespace Call

def now : Call → ℚ
  | take now _ => now
  | tryTake now _ => now

def cost : Call → ℚ
  | take _ cost => cost
  | tryTake _ cost => cost

end Call

/-- What `try_take` grants along a sequence of calls. -/
def grants : TokenBucket → List Call → List (Event ℚ)
  | _, [] => []
  | b, .take now cost :: calls => grants (b.take now cost).2 calls
  | b, .tryTake now cost :: calls =>
    let (granted, b) := b.tryTake now cost
    if granted then ⟨now, now, cost⟩ :: grants b calls else grants b calls

/-- A message in the loop of `_serve`: the reading of the clock in `take`,
its cost, when the loop went on, and whether the peer was closed then. -/
structure Message where
  now : ℚ
  cost : ℚ
  resumed : ℚ
  closed : Bool

/-- The loop of `_serve` from a bucket and a time on: each message is taken
from the budget, the loop goes on no earlier than the time to wait has
passed, and ends with the peer. -/
def Serves : TokenBucket → ℚ → List Message → Prop
  | _, _, [] => True
  | b, time, m :: ms =>
    time ≤ m.now ∧ m.now + (b.take m.now m.cost).1 ≤ m.resumed ∧
      (m.closed = true → ms = []) ∧ Serves (b.take m.now m.cost).2 m.resumed ms

/-- The messages `_handle` gets. -/
def handled (ms : List Message) : List (Event ℚ) :=
  (ms.filter fun m => !m.closed).map fun m => ⟨m.now, m.resumed, m.cost⟩

/-! ## The level of the bucket -/

@[simp] theorem refill_rate (now : ℚ) : (b.refill now).rate = b.rate := rfl

@[simp] theorem refill_burst (now : ℚ) : (b.refill now).burst = b.burst := rfl

@[simp] theorem refill_updated (now : ℚ) : (b.refill now).updated = now := rfl

@[simp] theorem take_rate (now cost : ℚ) : (b.take now cost).2.rate = b.rate := rfl

@[simp] theorem take_burst (now cost : ℚ) : (b.take now cost).2.burst = b.burst := rfl

@[simp] theorem take_updated (now cost : ℚ) : (b.take now cost).2.updated = now := rfl

@[simp] theorem take_tokens (now cost : ℚ) :
    (b.take now cost).2.tokens = (b.refill now).tokens - cost := rfl

theorem tokens_refill_le_burst (now : ℚ) : (b.refill now).tokens ≤ b.burst := min_le_left _ _

theorem tokens_refill_le (now : ℚ) :
    (b.refill now).tokens ≤ b.tokens + b.rate * (now - b.updated) := by
  rw [mul_comm]
  exact min_le_right _ _

/-- **The two answers of `try_take`.** -/
theorem tryTake_cases (now cost : ℚ) :
    (cost ≤ (b.refill now).tokens ∧
        b.tryTake now cost = (true, { b.refill now with tokens := (b.refill now).tokens - cost })) ∨
      b.tryTake now cost = (false, b.refill now) := by
  rcases lt_or_ge (b.refill now).tokens cost with h | h
  · exact .inr (if_pos h)
  · exact .inl ⟨h, if_neg (not_lt.2 h)⟩

/-- The seconds `take` says. -/
theorem take_wait (now cost : ℚ) :
    (b.take now cost).1 = if 0 ≤ (b.refill now).tokens - cost then 0
      else -((b.refill now).tokens - cost) / b.rate := rfl

theorem take_nonneg (hrate : 0 < b.rate) (now cost : ℚ) : 0 ≤ (b.take now cost).1 := by
  rw [take_wait]
  split
  · exact le_rfl
  · exact div_nonneg (by linarith) hrate.le

/-- Waiting as long as `take` says pays the debt. -/
theorem debt_paid (hrate : 0 < b.rate) {now cost resumed : ℚ}
    (h : now + (b.take now cost).1 ≤ resumed) :
    0 ≤ (b.refill now).tokens - cost + b.rate * (resumed - now) := by
  rw [take_wait] at h
  split at h
  · rename_i hpos
    have : 0 ≤ b.rate * (resumed - now) := mul_nonneg hrate.le (by linarith)
    linarith
  · have hle : -((b.refill now).tokens - cost) / b.rate ≤ resumed - now := by linarith
    rw [div_le_iff₀ hrate] at hle
    linarith

variable {b}

/-- The rest of the meter after a refill. -/
theorem metered_refill {now : ℚ} {es : List (Event ℚ)} (hnow : b.updated ≤ now)
    (h : Metered b.rate b.burst now (b.refill now).tokens es) :
    Metered b.rate b.burst b.updated b.tokens es :=
  h.wait hnow (b.tokens_refill_le now) (b.tokens_refill_le_burst now)

/-- **Grants are metered.** -/
theorem metered_grants : ∀ {calls : List Call} {b : TokenBucket},
    (b.updated :: calls.map Call.now).Pairwise (· ≤ ·) → (∀ c ∈ calls, 0 ≤ c.cost) →
    Metered b.rate b.burst b.updated b.tokens (b.grants calls) := by
  intro calls
  induction calls with
  | nil => exact fun _ _ => .nil
  | cons c calls ih =>
    intro b hsorted hcost
    rw [List.map_cons, List.pairwise_cons] at hsorted
    have hnow := hsorted.1 _ List.mem_cons_self
    have hc := hcost c List.mem_cons_self
    have hrest := fun c' hc' => hcost c' (List.mem_cons_of_mem c hc')
    cases c with
    | take now cost =>
      have htail := ih (b := (b.take now cost).2) hsorted.2 hrest
      have hlower : (b.refill now).tokens - cost ≤ (b.refill now).tokens := sub_le_self _ hc
      refine metered_refill hnow (Metered.wait le_rfl ?_ ?_ htail)
      · rw [take_tokens, sub_self, mul_zero, add_zero]
        exact hlower
      · exact hlower.trans (b.tokens_refill_le_burst now)
    | tryTake now cost =>
      rw [grants]
      rcases b.tryTake_cases now cost with ⟨hle, heq⟩ | heq
      · rw [heq]
        refine metered_refill hnow (Metered.spend (e := ⟨now, now, cost⟩) hc ?_
          (ih (b := { b.refill now with tokens := (b.refill now).tokens - cost }) hsorted.2 hrest))
        rw [sub_self, mul_zero, add_zero]
        exact sub_nonneg.2 hle
      · rw [heq]
        exact metered_refill hnow (ih (b := b.refill now) hsorted.2 hrest)

/-- A grant is released at once. -/
theorem prompt_grants : ∀ {calls : List Call} {b : TokenBucket},
    ∀ e ∈ b.grants calls, e.released = e.asked := by
  intro calls
  induction calls with
  | nil => exact fun _ he => absurd he List.not_mem_nil
  | cons c calls ih =>
    intro b e he
    cases c with
    | take now cost => exact ih e he
    | tryTake now cost =>
      rw [grants] at he
      rcases b.tryTake_cases now cost with ⟨-, heq⟩ | heq
      · rw [heq] at he
        rcases List.mem_cons.1 he with rfl | he
        · rfl
        · exact ih e he
      · rw [heq] at he
        exact ih e he

/-- **What a peer gets handled is metered.** -/
theorem metered_handled : ∀ {ms : List Message} {b : TokenBucket} {time : ℚ}, 0 < b.rate →
    b.updated ≤ time → b.Serves time ms → (∀ m ∈ ms, 0 ≤ m.cost) →
    Metered b.rate b.burst b.updated b.tokens (handled ms) := by
  intro ms
  induction ms with
  | nil => exact fun _ _ _ _ => .nil
  | cons m ms ih =>
    rintro b time hrate htime ⟨hnow, hwait, hclosed, hrest⟩ hcost
    have hc := hcost m List.mem_cons_self
    have hpaid := b.debt_paid hrate hwait
    have hresumed : m.now ≤ m.resumed := by linarith [b.take_nonneg hrate m.now m.cost]
    have htail := ih (b := (b.take m.now m.cost).2) hrate hresumed hrest fun m' hm' =>
      hcost m' (List.mem_cons_of_mem _ hm')
    cases hm : m.closed with
    | true =>
      rw [hclosed hm, handled, List.filter_cons_of_neg (by rw [hm]; decide)]
      exact .nil
    | false =>
      rw [handled, List.filter_cons_of_pos (by rw [hm]; decide), List.map_cons]
      exact metered_refill (htime.trans hnow) (Metered.spend
        (e := ⟨m.now, m.resumed, m.cost⟩) hc hpaid htail)

/-- **Rate limits bound what a client gets.** For a bucket made at `start`
and costs that are not negative: whatever is called, at readings of the
clock that do not go back, what `try_take` grants within any interval
costs at most the burst and what the rate gives for its length; and what
`_serve` handles within the first `length` seconds costs no more either. -/
theorem rate_bounds {rate burst : ℚ} (hrate : 0 < rate) (hburst : 0 ≤ burst) (start : ℚ) :
    (∀ calls : List Call, (start :: calls.map Call.now).Pairwise (· ≤ ·) →
      (∀ c ∈ calls, 0 ≤ c.cost) → ∀ first length, 0 ≤ length →
      within ((create rate burst start).grants calls) first (first + length) ≤
        burst + rate * length) ∧
    ∀ ms : List Message, (create rate burst start).Serves start ms → (∀ m ∈ ms, 0 ≤ m.cost) →
      ∀ length, 0 ≤ length → releasedBy (handled ms) (start + length) ≤ burst + rate * length := by
  refine ⟨fun calls hsorted hcost first length hlength => ?_,
    fun ms hserves hcost length hlength => ?_⟩
  · exact (metered_grants (b := create rate burst start) hsorted hcost).within_le hrate.le hburst
      le_rfl prompt_grants first hlength
  · have hall := (metered_handled (b := create rate burst start) hrate le_rfl hserves
      hcost).releasedBy_le hrate.le (start + length)
    have hgain : 0 ≤ burst + rate * length := add_nonneg hburst (mul_nonneg hrate.le hlength)
    refine hall.trans (max_le hgain ?_)
    rw [show start + length - (create rate burst start).updated = length from
      add_sub_cancel_left start length]
    exact le_rfl

/-- A burst of 5 with 10 a second: a grant, a refusal and another grant;
two messages, the second of which waits. -/
theorem rate_bounds_sample :
    within ((create 10 5 0).grants [.tryTake 0 4, .tryTake 0 3, .tryTake (1 / 2) 5]) 0 (0 + 1) ≤
        5 + 10 * 1 ∧
      releasedBy (handled [⟨0, 5, 0, false⟩, ⟨0, 20, 2, false⟩]) (0 + 2) ≤ (5 : ℚ) + 10 * 2 := by
  obtain ⟨hgrants, hhandled⟩ := rate_bounds (show (0 : ℚ) < 10 by norm_num)
    (show (0 : ℚ) ≤ 5 by norm_num) 0
  refine ⟨hgrants _ ?_ ?_ 0 1 (by norm_num), hhandled _ ?_ ?_ 2 (by norm_num)⟩
  · simp [Call.now]
  · simp [Call.cost]
  · norm_num [Serves, create, take, refill]
  · simp

end TokenBucket

end TalCash
