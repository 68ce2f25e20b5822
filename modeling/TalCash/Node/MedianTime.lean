import TalCash.Common.Median
import TalCash.Core.Sample
import TalCash.Node.Chain
/-!
# Median time never goes back

Timestamps may go backwards, the medians of the windows they are compared
with may not. `PassesTimes` is a chain of headers each of which passes the
timestamp rule; along it the median at each block is at least that at
every block before it (`PassesTimes.medianAt_le`), so that a timestamp is
above the median of every proper ancestor. For a chain of stored headers
these are the medians the node computes (`StoredChain.medianTimePast_eq`).
-/

namespace TalCash

/-- The median of a chain's newest timestamps, newest header first. -/
def medianAt (span : ℕ) (chain : List BlockHeader) : Except PyError ℕ :=
  medianTimePast ((chain.take span).map BlockHeader.timestamp)

theorem medianTimePast_eq_ok {timestamps : List ℕ} {median : ℕ} :
    medianTimePast timestamps = .ok median ↔ Median.upper timestamps = some median := by
  have hread : medianTimePast timestamps =
      (Median.upper timestamps).elim (.error .index) Except.ok := by
    unfold medianTimePast Median.upper
    dsimp only
    split
    · rename_i hnone; rw [hnone]; rfl
    · rename_i t ht; rw [ht]; rfl
  rw [hread]
  cases Median.upper timestamps <;> simp

/-- A chain of headers, newest first, each above the median of the window
that ends at its parent. -/
inductive PassesTimes (span : ℕ) : List BlockHeader → Prop
  /-- The first header has nothing to pass. -/
  | genesis (header : BlockHeader) : PassesTimes span [header]
  /-- A header above the median at its parent. -/
  | child {header parent : BlockHeader} {rest : List BlockHeader} {median : ℕ}
      (chain : PassesTimes span (parent :: rest))
      (median_eq : medianAt span (parent :: rest) = .ok median)
      (rule : median < header.timestamp) : PassesTimes span (header :: parent :: rest)

/-- A header accepted against its parent passes the rule. -/
theorem PassesTimes.of_check [Primitives] {span : ℕ} {header parent : BlockHeader}
    {rest : List BlockHeader} {median target : ℕ} {params : NetworkParams} {checkPow : Bool}
    (chain : PassesTimes span (parent :: rest))
    (median_eq : medianAt span (parent :: rest) = .ok median)
    (h : checkHeaderAgainstParent header parent median target params checkPow = .ok ()) :
    PassesTimes span (header :: parent :: rest) :=
  .child chain median_eq (checkHeaderAgainstParent_ok_iff.1 h).2.2.1

theorem medianAt_isOk {span : ℕ} (hspan : 1 ≤ span) {chain : List BlockHeader} (h : chain ≠ []) :
    ∃ median, medianAt span chain = .ok median := by
  refine medianTimePast_isOk ?_
  rw [Ne, List.map_eq_nil_iff, List.take_eq_nil_iff]
  rintro (hz | hz)
  · omega
  · exact h hz

/-- **One block on, the median has not gone back.** -/
theorem medianAt_le_cons {span : ℕ} (hspan : 1 ≤ span) {header : BlockHeader}
    {chain : List BlockHeader} {median median' : ℕ} (h : medianAt span chain = .ok median)
    (rule : median < header.timestamp) (h' : medianAt span (header :: chain) = .ok median') :
    median ≤ median' := by
  obtain ⟨room, rfl⟩ := Nat.exists_eq_add_of_le' hspan
  have hold := medianTimePast_eq_ok.1 h
  have hnew := medianTimePast_eq_ok.1 h'
  rw [List.map_take] at hold hnew
  exact Median.upper_le_upper room hold rule.le hnew

namespace PassesTimes

variable {span : ℕ} {chain : List BlockHeader}

/-- Each header is above the median at its parent. -/
theorem rule_at (h : PassesTimes span chain) : ∀ {i : ℕ} (hi : i + 1 < chain.length),
    ∃ median, medianAt span (chain.drop (i + 1)) = .ok median ∧ median < (chain[i]).timestamp := by
  induction h with
  | genesis header => intro i hi; simp at hi
  | child chain median_eq rule ih =>
    intro i hi
    cases i with
    | zero => exact ⟨_, median_eq, rule⟩
    | succ i => exact ih (Nat.lt_of_succ_lt_succ hi)

/-- **Medians along a chain**: at a block at least that at every ancestor. -/
theorem medianAt_le (hspan : 1 ≤ span) (h : PassesTimes span chain) :
    ∀ {i j : ℕ}, i ≤ j → j < chain.length →
      ∃ median ancestor, medianAt span (chain.drop i) = .ok median ∧
        medianAt span (chain.drop j) = .ok ancestor ∧ ancestor ≤ median := by
  induction h with
  | genesis header =>
    intro i j hij hj
    obtain ⟨median, hm⟩ := medianAt_isOk hspan (List.cons_ne_nil header [])
    have hj0 : j = 0 := by simpa using hj
    obtain rfl : i = 0 := by omega
    subst hj0
    exact ⟨median, median, hm, hm, le_rfl⟩
  | @child header parent rest median chain median_eq rule ih =>
    intro i j hij hj
    cases i with
    | succ i =>
      obtain ⟨j, rfl⟩ := Nat.exists_eq_add_of_le' (show 1 ≤ j by omega)
      exact ih (Nat.le_of_succ_le_succ hij) (Nat.lt_of_succ_lt_succ hj)
    | zero =>
      obtain ⟨newest, hnewest⟩ := medianAt_isOk hspan (List.cons_ne_nil header (parent :: rest))
      cases j with
      | zero => exact ⟨newest, newest, hnewest, hnewest, le_rfl⟩
      | succ j =>
        -- through the parent: its median lies between the two
        obtain ⟨atParent, ancestor, hparent, hancestor, hle⟩ :=
          ih (Nat.zero_le j) (Nat.lt_of_succ_lt_succ hj)
        have hstep := medianAt_le_cons hspan median_eq rule hnewest
        rw [List.drop_zero, median_eq, Except.ok.injEq] at hparent
        exact ⟨newest, ancestor, hnewest, hancestor, by omega⟩

end PassesTimes

section

variable [Primitives]

/-- A chain of stored headers, newest first, down to height 0. -/
inductive StoredChain (db : Db) : List BlockHeader → Prop
  /-- The header at height 0. -/
  | genesis {header : BlockHeader} {row : HeaderRow} (stored : db.header header.blockId = some row)
      (row_header : row.header = header) (height : header.height = 0) : StoredChain db [header]
  /-- A header that names the one below it. -/
  | child {header parent : BlockHeader} {rest : List BlockHeader} {row : HeaderRow}
      (chain : StoredChain db (parent :: rest)) (stored : db.header header.blockId = some row)
      (row_header : row.header = header) (height : 0 < header.height)
      (prevId : header.prevId = parent.blockId) : StoredChain db (header :: parent :: rest)

namespace StoredChain

variable {db : Db} {chain : List BlockHeader}

/-- The timestamps the node reads upwards from a stored header. -/
theorem recentTimestamps_eq (h : StoredChain db chain) : ∀ (count : ℕ) {header : BlockHeader},
    chain.head? = some header →
      db.recentTimestamps count (db.header header.blockId) =
        (chain.take count).map BlockHeader.timestamp := by
  induction h with
  | @genesis header row stored row_header height =>
    intro count header' hhead
    cases hhead
    cases count with
    | zero => rfl
    | succ count =>
      have hrow : ¬ 0 < row.height := by
        rw [HeaderRow.height, row_header, height]
        exact lt_irrefl 0
      rw [stored, Db.recentTimestamps, if_neg hrow, row_header]
      cases count <;> rfl
  | @child header parent rest row chain stored row_header height prevId ih =>
    intro count header' hhead
    cases hhead
    cases count with
    | zero => rfl
    | succ count =>
      have hrow : 0 < row.height := by rwa [HeaderRow.height, row_header]
      rw [stored, Db.recentTimestamps, if_pos hrow, row_header, prevId, ih count rfl]
      rfl

theorem drop (h : StoredChain db chain) : ∀ {i : ℕ}, i < chain.length →
    StoredChain db (chain.drop i) := by
  induction h with
  | genesis stored row_header height =>
    intro i hi
    obtain rfl : i = 0 := by simpa using hi
    exact .genesis stored row_header height
  | child chain stored row_header height prevId ih =>
    intro i hi
    cases i with
    | zero => exact .child chain stored row_header height prevId
    | succ i => exact ih (Nat.lt_of_succ_lt_succ hi)

/-- The node's median at a block of a stored chain. -/
theorem medianTimePast_eq (h : StoredChain db chain) (params : NetworkParams) {i : ℕ}
    (hi : i < chain.length) :
    db.medianTimePast params (chain[i]).blockId =
      medianAt params.medianTimeSpan (chain.drop i) := by
  have hhead : (chain.drop i).head? = some chain[i] := by
    rw [List.head?_drop, List.getElem?_eq_getElem hi]
  rw [Db.medianTimePast, (h.drop hi).recentTimestamps_eq _ hhead, medianAt]

end StoredChain

/-- **Median time never goes back.** Along every chain of headers that
pass the timestamp rule, for every span of at least one block, the median
at each block is at least that at its parent, and every timestamp is above
the medians at all proper ancestors; where the chain is stored, those are
the medians the node computes. -/
theorem medianTime_never_back {span : ℕ} (hspan : 1 ≤ span) {chain : List BlockHeader}
    (h : PassesTimes span chain) :
    (∀ i, i + 1 < chain.length →
      ∃ median atParent, medianAt span (chain.drop i) = .ok median ∧
        medianAt span (chain.drop (i + 1)) = .ok atParent ∧ atParent ≤ median) ∧
    (∀ i j (hij : i < j) (hj : j < chain.length),
      ∃ ancestor, medianAt span (chain.drop j) = .ok ancestor ∧
        ancestor < (chain[i]).timestamp) ∧
    ∀ (params : NetworkParams) (db : Db), params.medianTimeSpan = span → StoredChain db chain →
      ∀ i (hi : i < chain.length),
        db.medianTimePast params (chain[i]).blockId = medianAt span (chain.drop i) := by
  refine ⟨fun i hi => h.medianAt_le hspan (Nat.le_succ i) hi, fun i j hij hj => ?_, ?_⟩
  · obtain ⟨median, hmedian, hrule⟩ := h.rule_at (i := i) (by omega)
    obtain ⟨atParent, ancestor, hparent, hancestor, hle⟩ :=
      h.medianAt_le hspan (i := i + 1) (j := j) hij hj
    rw [hmedian, Except.ok.injEq] at hparent
    exact ⟨ancestor, hancestor, by omega⟩
  · rintro params db rfl hstored i hi
    exact hstored.medianTimePast_eq params hi

end

/-! ## A sample chain -/

theorem Sample.zero_lt_width : 0 < 256 ^ 8 := by decide

theorem Sample.target_lt_width : 1 < 256 ^ 32 := by decide

theorem Sample.mod_lt_width (n : ℕ) : n % 256 ^ 8 < 256 ^ 8 := Nat.mod_lt _ Sample.zero_lt_width

/-- A header with a timestamp. -/
def Sample.headerAt (timestamp : ℕ) : BlockHeader :=
  ⟨BLOCK_VERSION, 0, zeroBytes 32, zeroBytes 32, zeroBytes 32, timestamp % 256 ^ 8, 1, 0,
    BLOCK_VERSION_lt, Sample.zero_lt_width, Sample.mod_lt_width timestamp,
    Sample.target_lt_width, Sample.zero_lt_width⟩

/-- A chain whose fourth timestamp goes back. -/
def Sample.timed : List BlockHeader :=
  [Sample.headerAt 21, Sample.headerAt 30, Sample.headerAt 20, Sample.headerAt 10]

theorem Sample.timed_passes : PassesTimes 3 Sample.timed :=
  .child (.child (.child (.genesis _) rfl (by decide)) rfl (by decide)) rfl (by decide)

attribute [local instance] Sample.primitives

theorem medianTime_never_back_sample :
    ∃ median atParent, medianAt 3 Sample.timed = .ok median ∧
      medianAt 3 (Sample.timed.drop 1) = .ok atParent ∧ atParent ≤ median :=
  (medianTime_never_back (by decide) Sample.timed_passes).1 0 (by decide)

end TalCash
