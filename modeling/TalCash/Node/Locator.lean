import TalCash.Node.Earned
import TalCash.Node.Keeping
/-!
# Locators

A node names its active chain by a short list of ids, newest first, and a
peer answers with the headers that follow the first of them it has. The
heights of the list are ten in a row, then steps that double
(`locatorHeights_spec`); two active chains that share a block share all
below it (`Common.of_le`), so the answer starts at a common block, and one
not further below the split than the split is below the tip
(`locator_finds_split`).
-/

namespace TalCash

/-! ## The walk down -/

/-- The heights the loop of `locator` passes, with `count` ids collected
before it; a loop that does not come down is `diverged`. -/
def locatorHeights : (steps count height step : ℕ) → Except PyError (List ℕ)
  | 0, _, height, _ => if 0 < height then .error .diverged else .ok []
  | steps + 1, count, height, step =>
    if 0 < height then do
      let step := if 10 ≤ count + 1 then step * 2 else step
      let rest ← locatorHeights steps (count + 1) (height - step) step
      .ok (height :: rest)
    else .ok []

/-- How far below the tip the id of an index is. -/
def locatorOffset (i : ℕ) : ℕ := if i < 9 then i else 7 + 2 ^ (i - 8)

/-- The step before the id of an index is collected. -/
def locatorStep (i : ℕ) : ℕ := if i < 10 then 1 else 2 ^ (i - 9)

theorem locatorOffset_of_le {i : ℕ} (h : i ≤ 9) : locatorOffset i = i := by
  unfold locatorOffset
  split
  · rfl
  · obtain rfl : i = 9 := by omega
    rfl

theorem locatorOffset_of_ge {i : ℕ} (h : 9 ≤ i) : locatorOffset i = 7 + 2 ^ (i - 8) := by
  rw [locatorOffset, if_neg (by omega)]

/-- One round of the loop. -/
theorem locatorStep_succ (i : ℕ) :
    (if 10 ≤ i + 1 then locatorStep i * 2 else locatorStep i) = locatorStep (i + 1) := by
  unfold locatorStep
  rcases Nat.lt_or_ge i 9 with h | h
  · rw [if_neg (by omega), if_pos (by omega), if_pos (by omega)]
  · rw [if_pos (by omega), if_neg (show ¬ i + 1 < 10 by omega)]
    obtain ⟨k, rfl⟩ := Nat.exists_eq_add_of_le h
    rw [show 9 + k + 1 - 9 = k + 1 by omega, show 9 + k - 9 = k by omega, pow_succ]
    split
    · obtain rfl : k = 0 := by omega
      rfl
    · rfl

theorem locatorOffset_succ (i : ℕ) :
    locatorOffset (i + 1) = locatorOffset i + locatorStep (i + 1) := by
  rcases Nat.lt_or_ge i 9 with h | h
  · rw [locatorOffset_of_le (by omega), locatorOffset_of_le (by omega), locatorStep,
      if_pos (by omega)]
  · obtain ⟨k, rfl⟩ := Nat.exists_eq_add_of_le h
    rw [locatorOffset_of_ge (by omega), locatorOffset_of_ge h, locatorStep, if_neg (by omega),
      show 9 + k + 1 - 8 = k + 1 + 1 by omega, show 9 + k - 8 = k + 1 by omega,
      show 9 + k + 1 - 9 = k + 1 by omega, pow_succ 2 (k + 1)]
    omega

theorem locatorStep_pos (i : ℕ) : 0 < locatorStep i := by
  unfold locatorStep
  split
  · exact Nat.one_pos
  · exact Nat.two_pow_pos _

theorem locatorOffset_strictMono : StrictMono locatorOffset := by
  refine strictMono_nat_of_lt_succ fun i => ?_
  have := locatorStep_pos (i + 1)
  rw [locatorOffset_succ]
  omega

/-- **The heights of a locator**: those at the offsets that are above
genesis. -/
theorem locatorHeights_spec (tip : ℕ) : ∀ (steps i : ℕ), tip - locatorOffset i ≤ steps →
    ∃ n, i ≤ n ∧ (∀ j, i ≤ j → j < n → locatorOffset j < tip) ∧ tip ≤ locatorOffset n ∧
      locatorHeights steps i (tip - locatorOffset i) (locatorStep i) =
        .ok ((List.range' i (n - i)).map fun j => tip - locatorOffset j) := by
  intro steps
  induction steps with
  | zero =>
    intro i h
    refine ⟨i, le_rfl, fun j h1 h2 => ?_, by omega, ?_⟩
    · omega
    · rw [locatorHeights, if_neg (by omega), Nat.sub_self]
      rfl
  | succ steps ih =>
    intro i h
    rw [locatorHeights]
    split
    · have hstep := locatorStep_pos (i + 1)
      have hnext : tip - locatorOffset i - locatorStep (i + 1) = tip - locatorOffset (i + 1) := by
        rw [locatorOffset_succ]
        omega
      obtain ⟨n, hin, hbelow, hend, hrest⟩ := ih (i + 1) (by rw [locatorOffset_succ]; omega)
      refine ⟨n, by omega, fun j h1 h2 => ?_, hend, ?_⟩
      · rcases Nat.eq_or_lt_of_le h1 with rfl | h1
        · omega
        · exact hbelow j h1 h2
      · have hlen : n - i = n - (i + 1) + 1 := by omega
        rw [locatorStep_succ]
        dsimp only
        rw [hnext, hrest, hlen, List.range'_succ]
        rfl
    · refine ⟨i, le_rfl, fun j h1 h2 => by omega, by omega, ?_⟩
      rw [Nat.sub_self]
      rfl

/-! ## Asking and answering -/

namespace Db

variable (db : Db)

/-- `locator`, ending with the id of genesis. -/
def locator (genesis : Digest) : Except PyError (List (Option Digest)) := do
  let heights ← locatorHeights db.tipHeight 0 db.tipHeight 1
  .ok (heights.map db.mainId ++ [some genesis])

/-- The header of the active chain at a height. -/
def activeHeader (height : ℕ) : Option BlockHeader :=
  ((db.mainId height).bind db.header).map HeaderRow.header

/-- `main_headers`: the rows of both tables, in the order of heights. -/
def mainHeaders (first last : ℕ) : List BlockHeader :=
  (List.range' first (last + 1 - first)).filterMap db.activeHeader

/-- `headers_after`. -/
def headersAfter (locator : List Digest) (limit : ℕ) : List BlockHeader :=
  let start :=
    match (locator.find? db.isOnMainChain).bind db.header with
    | none => 1
    | some row => row.height + 1
  db.mainHeaders start (min db.tipHeight (start + limit - 1))

/-- The headers of the active chain. -/
def activeHeaders : Set BlockHeader := {h | ∃ height, db.activeHeader height = some h}

end Db

section

variable [Primitives]

/-- **The active chain** leads from the tip to genesis through stored
rows, each under the id of its header. -/
structure ActiveChain (genesis : Digest) (db : Db) : Prop where
  genesis : db.mainId 0 = some genesis
  main : ∀ height id, db.mainId height = some id →
    ∃ r, db.header id = some r ∧ r.blockId = id ∧ r.height = height
  below : ∀ height id r, db.mainId (height + 1) = some id → db.header id = some r →
    db.mainId height = some r.header.prevId

variable {genesis : Digest} {a b db : Db} {id : Digest} {height : ℕ}

namespace ActiveChain

theorem isSome_main_iff (h : ActiveChain genesis db) :
    (db.mainId height).isSome ↔ height ≤ db.tipHeight := by
  constructor
  · exact fun hs => Table.le_maxKey hs
  · intro hle
    have hbelow : ∀ k, (db.mainChain.lookup (k + 1)).isSome → (db.mainChain.lookup k).isSome := by
      intro k hk
      obtain ⟨id, hid⟩ := Option.isSome_iff_exists.1 hk
      obtain ⟨r, hr, -, -⟩ := h.main (k + 1) id hid
      exact Option.isSome_iff_exists.2 ⟨_, h.below k id r hid hr⟩
    have hzero : (db.mainChain.lookup 0).isSome := Option.isSome_iff_exists.2 ⟨_, h.genesis⟩
    exact Spine.isSome_main_of_le hbelow (Table.isSome_lookup_maxKey hzero) hle

/-- The row of a height. -/
theorem row (h : ActiveChain genesis db) (hle : height ≤ db.tipHeight) :
    ∃ id r, db.mainId height = some id ∧ db.header id = some r ∧ r.blockId = id ∧
      r.height = height ∧ db.activeHeader height = some r.header := by
  obtain ⟨id, hid⟩ := Option.isSome_iff_exists.1 (h.isSome_main_iff.2 hle)
  obtain ⟨r, hr, hkey, hheight⟩ := h.main height id hid
  exact ⟨id, r, hid, hr, hkey, hheight, by rw [Db.activeHeader, hid, Option.bind_some, hr]; rfl⟩

/-- Heights fit their field. -/
theorem tipHeight_lt (h : ActiveChain genesis db) : db.tipHeight < 2 ^ 64 := by
  obtain ⟨_, r, -, -, -, hheight, -⟩ := h.row le_rfl
  have hlt := r.header.height_lt
  rw [HeaderRow.height] at hheight
  rw [hheight] at hlt
  exact hlt.trans_eq (by norm_num)

end ActiveChain

/-! ## Where two chains split -/

/-- A block of both active chains. -/
def Common (a b : Db) (height : ℕ) : Prop :=
  ∃ id, a.mainId height = some id ∧ b.mainId height = some id

/-- Two headers of the two chains with one id are one header. -/
def OneHeader (a b : Db) : Prop := IdsUnique (a.activeHeaders ∪ b.activeHeaders)

theorem OneHeader.eq (hH : OneHeader a b) {i j : ℕ} {h k : BlockHeader}
    (hi : a.activeHeader i = some h) (hj : b.activeHeader j = some k)
    (hid : h.blockId = k.blockId) : h = k :=
  hH (Or.inl ⟨i, hi⟩) (Or.inr ⟨j, hj⟩) hid

namespace Common

/-- A common block has one header. -/
theorem header (ha : ActiveChain genesis a) (hb : ActiveChain genesis b) (hH : OneHeader a b)
    (h : Common a b height) : ∃ id r r', a.mainId height = some id ∧ b.mainId height = some id ∧
      a.header id = some r ∧ b.header id = some r' ∧ r.header = r'.header := by
  obtain ⟨id, hida, hidb⟩ := h
  obtain ⟨r, hr, hkey, -⟩ := ha.main _ _ hida
  obtain ⟨r', hr', hkey', -⟩ := hb.main _ _ hidb
  refine ⟨id, r, r', hida, hidb, hr, hr', hH.eq (i := height) (j := height) ?_ ?_
    (hkey.trans hkey'.symm)⟩
  · rw [Db.activeHeader, hida, Option.bind_some, hr]
    rfl
  · rw [Db.activeHeader, hidb, Option.bind_some, hr']
    rfl

/-- **Chains that share a block share all below it.** -/
theorem of_le (ha : ActiveChain genesis a) (hb : ActiveChain genesis b) (hH : OneHeader a b)
    {i : ℕ} (h : Common a b height) (hle : i ≤ height) : Common a b i := by
  induction height with
  | zero => rwa [Nat.le_zero.1 hle]
  | succ height ih =>
    rcases Nat.lt_succ_iff_lt_or_eq.1 (Nat.lt_succ_of_le hle) with hlt | rfl
    · refine ih ?_ (Nat.le_of_lt_succ hlt)
      obtain ⟨id, r, r', hida, hidb, hr, hr', he⟩ := h.header ha hb hH
      exact ⟨_, ha.below _ _ _ hida hr, he ▸ hb.below _ _ _ hidb hr'⟩
    · exact h

/-- A block of one chain is on the other exactly where it is common. -/
theorem isOnMainChain_iff (ha : ActiveChain genesis a) (hb : ActiveChain genesis b)
    (hH : OneHeader a b) (hid : a.mainId height = some id) :
    b.isOnMainChain id = true ↔ Common a b height := by
  unfold Db.isOnMainChain
  constructor
  · intro hon
    split at hon
    · cases hon
    · rename_i row hrow
      have hidb : b.mainId row.height = some id := of_decide_eq_true hon
      obtain ⟨r, hr, hkey, hheight⟩ := ha.main _ _ hid
      obtain ⟨r', hr', hkey', -⟩ := hb.main _ _ hidb
      have he : r.header = r'.header := by
        refine hH.eq (i := height) (j := row.height) ?_ ?_ (hkey.trans hkey'.symm)
        · rw [Db.activeHeader, hid, Option.bind_some, hr]
          rfl
        · rw [Db.activeHeader, hidb, Option.bind_some, hr']
          rfl
      rw [hrow, Option.some.injEq] at hr'
      have hsame : row.height = height := by
        rw [← hheight, HeaderRow.height, HeaderRow.height, hr', he]
      exact ⟨id, hid, hsame ▸ hidb⟩
  · rintro ⟨id', hid', hidb⟩
    rw [hid, Option.some.injEq] at hid'
    subst hid'
    obtain ⟨r', hr', -, rfl⟩ := hb.main _ _ hidb
    rw [hr']
    exact decide_eq_true hidb

end Common

/-- The last common block. -/
theorem exists_greatest_common (ha : ActiveChain genesis a) (hb : ActiveChain genesis b) :
    ∃ f, IsGreatest {height | Common a b height} f := by
  have hbound : BddAbove {height | Common a b height} := by
    refine ⟨a.tipHeight, ?_⟩
    rintro height ⟨id, hid, -⟩
    exact ha.isSome_main_iff.1 (by rw [hid]; rfl)
  have hzero : {height | Common a b height}.Nonempty := ⟨0, genesis, ha.genesis, hb.genesis⟩
  exact ⟨_, Nat.sSup_mem hzero hbound, fun _ h => le_csSup hbound h⟩

/-! ## The answer -/

/-- Headers of heights up to the tip, in order and without gaps. -/
theorem ActiveChain.mainHeaders_eq (h : ActiveChain genesis db) {first count : ℕ}
    (hle : first + count ≤ db.tipHeight + 1) :
    ((List.range' first count).filterMap db.activeHeader).map some =
      (List.range' first count).map db.activeHeader := by
  induction count generalizing first with
  | zero => rfl
  | succ count ih =>
    obtain ⟨_, r, -, -, -, -, hr⟩ := h.row (show first ≤ db.tipHeight by omega)
    rw [List.range'_succ, List.filterMap_cons_some hr, List.map_cons, List.map_cons, hr,
      ih (by omega)]

omit [Primitives] in
/-- The offset of the first id at or below a height. -/
theorem exists_first_offset {tip f n : ℕ} (hend : tip ≤ locatorOffset n) :
    ∃ k ≤ n, tip - locatorOffset k ≤ f ∧ ∀ j < k, f < tip - locatorOffset j := by
  have hex : ∃ k, tip - locatorOffset k ≤ f := ⟨n, by omega⟩
  refine ⟨Nat.find hex, Nat.find_min' hex (by omega), Nat.find_spec hex, fun j hj => ?_⟩
  exact not_le.1 (Nat.find_min hex hj)

omit [Primitives] in
/-- **How far the answer goes back** behind the split. -/
theorem rewind_le {tip f k : ℕ} (hf : f ≤ tip) (hk : tip - locatorOffset k ≤ f)
    (hfirst : ∀ j < k, f < tip - locatorOffset j) :
    (tip ≤ f + 9 → tip - locatorOffset k = f) ∧
      (f + 9 < tip → f - (tip - locatorOffset k) < tip - f) := by
  constructor
  · intro hnear
    rcases Nat.lt_or_ge (tip - f) k with hlt | hge
    · have hbefore := hfirst (tip - f) hlt
      rw [locatorOffset_of_le (by omega)] at hbefore
      omega
    · rw [locatorOffset_of_le (by omega)] at hk ⊢
      omega
  · intro hfar
    have hten : 10 ≤ k := by
      by_contra hlt
      rw [locatorOffset_of_le (by omega)] at hk
      omega
    -- the offset before is short of the split, and offsets at most double
    have hbefore := hfirst (k - 1) (by omega)
    obtain ⟨m, rfl⟩ := Nat.exists_eq_add_of_le hten
    rw [locatorOffset_of_ge (by omega), show 10 + m - 1 - 8 = m + 1 by omega] at hbefore
    rw [locatorOffset_of_ge (by omega), show 10 + m - 8 = m + 1 + 1 by omega, pow_succ 2 (m + 1)]
    omega

/-- The headers after a locator of which one id is the first the answering
node has on its active chain. -/
theorem ActiveChain.headersAfter_eq (h : ActiveChain genesis db) {ids : List Digest} {s limit : ℕ}
    (hlimit : 1 ≤ limit) (hfind : ids.find? db.isOnMainChain = some id)
    (hs : db.mainId s = some id) :
    (db.headersAfter ids limit).map some =
      (List.range' (s + 1) (min limit (db.tipHeight - s))).map db.activeHeader := by
  obtain ⟨r, hr, -, hheight⟩ := h.main s id hs
  have hle : s ≤ db.tipHeight := h.isSome_main_iff.1 (by rw [hs]; rfl)
  have hcount : min db.tipHeight (s + 1 + limit - 1) + 1 - (s + 1) =
      min limit (db.tipHeight - s) := by omega
  have hroom : s + 1 + min limit (db.tipHeight - s) ≤ db.tipHeight + 1 := by omega
  simp only [Db.headersAfter, hfind, Option.bind_some, hr, hheight, Db.mainHeaders, hcount]
  exact h.mainHeaders_eq hroom

/-- The header after a height names the block there. -/
theorem ActiveChain.prevId_of_activeHeader (h : ActiveChain genesis db) {header : BlockHeader}
    (hheader : db.activeHeader (height + 1) = some header) :
    db.mainId height = some header.prevId := by
  obtain ⟨r, hr, rfl⟩ := Option.map_eq_some_iff.1 hheader
  obtain ⟨id, hid, hrow⟩ := Option.bind_eq_some_iff.1 hr
  exact h.below height id r hid hrow

/-- The height of the locator's id of an index. -/
def Db.locatorHeight (db : Db) (i : ℕ) : ℕ := db.tipHeight - locatorOffset i

/-- **A locator**: as many ids as it takes to pass genesis, at most 73. -/
theorem ActiveChain.locator_spec (h : ActiveChain genesis db) :
    ∃ (n : ℕ) (idAt : ℕ → Digest), n ≤ 72 ∧ db.tipHeight ≤ locatorOffset n ∧
      (∀ i < n, locatorOffset i < db.tipHeight) ∧
      (∀ i, db.mainId (db.locatorHeight i) = some (idAt i)) ∧
      db.locator genesis = .ok (((List.range (n + 1)).map idAt).map some) := by
  obtain ⟨n, -, hbelow, hend, hloop⟩ := locatorHeights_spec db.tipHeight db.tipHeight 0
    (Nat.sub_le _ _)
  have hoffset : locatorOffset 0 = 0 := rfl
  have hstep : locatorStep 0 = 1 := rfl
  rw [hoffset, hstep, Nat.sub_zero, Nat.sub_zero, ← List.range_eq_range'] at hloop
  have hid : ∀ i, ∃ id, db.mainId (db.locatorHeight i) = some id := fun i =>
    Option.isSome_iff_exists.1 (h.isSome_main_iff.2 (Nat.sub_le _ _))
  choose idAt hidAt using hid
  have hlast : db.locatorHeight n = 0 := Nat.sub_eq_zero_of_le hend
  have hgenesis : genesis = idAt n := by
    have hn := hidAt n
    rw [hlast, h.genesis, Option.some.injEq] at hn
    exact hn
  refine ⟨n, idAt, ?_, hend, fun i hi => hbelow i (Nat.zero_le i) hi, hidAt, ?_⟩
  · -- 64 doublings pass every height
    by_contra hlt
    have hpast := hbelow 72 (Nat.zero_le _) (by omega)
    have htip := h.tipHeight_lt
    rw [locatorOffset_of_ge (by decide)] at hpast
    norm_num at hpast htip
    omega
  · have hids : ((List.range n).map fun j => db.tipHeight - locatorOffset j).map db.mainId =
        (List.range n).map fun i => some (idAt i) := by
      rw [List.map_map]
      exact List.map_congr_left fun i _ => hidAt i
    rw [List.map_map, List.range_succ, List.map_append, List.map_singleton, Function.comp_apply,
      ← hgenesis, Db.locator, hloop]
    exact congrArg (fun ids => Except.ok (ids ++ [some genesis])) hids

/-- **Locators find the split.** For two active chains from one genesis,
with `f` the height of their last common block: the locator of the one
node has at most 101 ids, of strictly decreasing heights from its tip down
to genesis, and what the other answers are its headers from `s + 1` on,
where `s` is the height of a common block at or below the split; `s` is
`f` if the tip is at most 9 above it, and elsewhere closer to `f` than `f`
is to the tip. -/
theorem locator_finds_split (ha : ActiveChain genesis a) (hb : ActiveChain genesis b)
    (hH : OneHeader a b) {limit : ℕ} (hlimit : 1 ≤ limit) :
    ∃ (f : ℕ) (heights : List ℕ) (ids : List Digest) (s : ℕ),
      IsGreatest {height | Common a b height} f ∧
      a.locator genesis = .ok (ids.map some) ∧ ids.map some = heights.map a.mainId ∧
      ids.length ≤ 101 ∧ heights.Pairwise (· > ·) ∧ heights.head? = some a.tipHeight ∧
      heights.getLast? = some 0 ∧
      s ≤ f ∧ Common a b s ∧
      (b.headersAfter ids limit).map some =
        (List.range' (s + 1) (min limit (b.tipHeight - s))).map b.activeHeader ∧
      (∀ header, (b.headersAfter ids limit).head? = some header →
        a.mainId s = some header.prevId) ∧
      (a.tipHeight ≤ f + 9 → s = f) ∧ (f + 9 < a.tipHeight → f - s < a.tipHeight - f) := by
  obtain ⟨f, hf⟩ := exists_greatest_common ha hb
  have hcommon : ∀ {height}, Common a b height ↔ height ≤ f :=
    ⟨fun h => hf.2 h, fun h => Common.of_le ha hb hH hf.1 h⟩
  have hftip : f ≤ a.tipHeight := by
    obtain ⟨id, hid, -⟩ := hf.1
    exact ha.isSome_main_iff.1 (by rw [hid]; rfl)
  obtain ⟨n, idAt, hn, hend, hbelow, hidAt, hlocator⟩ := ha.locator_spec
  obtain ⟨k, hkn, hk, hfirst⟩ := exists_first_offset (f := f) hend
  obtain ⟨hnear, hfar⟩ := rewind_le hftip hk hfirst
  have hon : ∀ i, b.isOnMainChain (idAt i) = true ↔ a.locatorHeight i ≤ f := fun i =>
    (Common.isOnMainChain_iff ha hb hH (hidAt i)).trans hcommon
  have hfind : ((List.range (n + 1)).map idAt).find? b.isOnMainChain = some (idAt k) := by
    rw [List.find?_map, Option.map_eq_some_iff]
    refine ⟨k, List.find?_range_eq_some.2 ⟨(hon k).2 hk, List.mem_range.2 (by omega),
      fun i hi => ?_⟩, rfl⟩
    have habove : f < a.locatorHeight i := hfirst i hi
    rw [Function.comp_apply, Bool.not_eq_true', Bool.eq_false_iff, Ne, hon]
    omega
  have hs : Common a b (a.locatorHeight k) := hcommon.2 hk
  have hsb : b.mainId (a.locatorHeight k) = some (idAt k) := by
    obtain ⟨id, hida, hidb⟩ := hs
    rw [hidAt k, Option.some.injEq] at hida
    rwa [hida]
  have hanswer := hb.headersAfter_eq hlimit hfind hsb
  have hlast : a.locatorHeight n = 0 := Nat.sub_eq_zero_of_le hend
  refine ⟨f, (List.range (n + 1)).map a.locatorHeight, (List.range (n + 1)).map idAt,
    a.locatorHeight k, hf, hlocator, ?_, ?_, ?_, ?_, ?_, hk, hs, hanswer, fun header hhead => ?_,
    hnear, hfar⟩
  · rw [List.map_map, List.map_map]
    exact List.map_congr_left fun i _ => (hidAt i).symm
  · rw [List.length_map, List.length_range]
    omega
  · rw [List.pairwise_map]
    refine List.pairwise_lt_range.imp_of_mem fun {i j} hi hj hij => ?_
    have hi' := hbelow i (by have := List.mem_range.1 hj; omega)
    have hlt := locatorOffset_strictMono hij
    simp only [Db.locatorHeight]
    omega
  · rw [List.range_succ_eq_map, List.map_cons, List.head?_cons]
    rfl
  · rw [List.range_succ, List.map_append, List.map_singleton, List.getLast?_append, hlast]
    rfl
  · -- the parent of the first header is the common block
    have hhead' := congrArg List.head? hanswer
    rw [List.head?_map, hhead, List.head?_map, List.head?_range'] at hhead'
    split at hhead'
    · cases hhead'
    · have hnext := hb.prevId_of_activeHeader (Option.some.inj hhead').symm
      rw [hidAt k, ← hsb, hnext]

/-! ## The active chains of nodes -/

section

variable {params : NetworkParams} {B : Set Block} {H : Set BlockHeader} {lim : ℕ} {s : Store}
variable {L : Ledger}

theorem Spine.activeChain (h : Spine params H lim db) :
    ActiveChain (genesisBlock params).blockId db where
  genesis := h.genesis
  main height id hid := by
    obtain ⟨r, hr, hheight⟩ := h.main height id hid
    exact ⟨r, hr, h.keyed id r hr, hheight⟩
  below := h.below

/-- Above genesis the parent is in the chain. -/
theorem Ledger.Valid.Linked.parent_mem {chain : List Block} (h : Ledger.Valid.Linked params chain)
    {c : Block} (hc : c ∈ chain) (hheight : c.height = height + 1) :
    ∃ p ∈ chain, p.height = height ∧ c.header.prevId = p.blockId := by
  induction h with
  | genesis =>
    rw [List.mem_singleton.1 hc, genesisBlock_height] at hheight
    omega
  | @cons block parent rest _ hh hp _ ih =>
    rcases List.mem_cons.1 hc with rfl | hc
    · exact ⟨parent, List.mem_cons_of_mem _ List.mem_cons_self, by omega, hp⟩
    · obtain ⟨p, hmem, hpar⟩ := ih hc
      exact ⟨p, List.mem_cons_of_mem _ hmem, hpar⟩

/-- A store that holds a ledger has its chain. -/
theorem Good.activeChain (h : Good params B lim s L) :
    ActiveChain (genesisBlock params).blockId s.db where
  genesis := h.tables.mainId_eq_some.2
    ⟨_, h.valid.linked.genesis_mem, genesisBlock_height params, rfl⟩
  main height id hid := by
    obtain ⟨c, hc, rfl, rfl⟩ := h.tables.mainId_eq_some.1 hid
    obtain ⟨-, r, hr, hbody⟩ := h.chain c hc
    exact ⟨r, hr, h.keyed _ r hr, by rw [HeaderRow.height, ← hbody.header]; rfl⟩
  below height id r hid hr := by
    obtain ⟨c, hc, hheight, rfl⟩ := h.tables.mainId_eq_some.1 hid
    obtain ⟨-, r', hr', hbody⟩ := h.chain c hc
    rw [Db.header, hr', Option.some.injEq] at hr
    subst hr
    obtain ⟨p, hp, hph, hprev⟩ := h.valid.linked.parent_mem hc hheight
    rw [← hbody.header, hprev]
    exact h.tables.mainId_eq_some.2 ⟨p, hp, hph, rfl⟩

/-- **Nodes have active chains** after whatever blocks were submitted. -/
theorem Node.activeChain_afterBlocks (params : NetworkParams) (clock : ℕ → ℤ)
    (blocks : List Block) :
    ActiveChain (genesisBlock params).blockId (afterBlocks params clock blocks).store.db := by
  obtain ⟨L, hs, -⟩ := soundNode_after (B := {b | b = genesisBlock params ∨ b ∈ blocks}) params
    clock blocks (Or.inl rfl) fun b hb => Or.inr hb
  exact hs.good.activeChain

end

/-! ## Two nodes that split -/

omit [Primitives] in
/-- The headers of an active chain are those up to its tip. -/
theorem Db.mem_activeHeaders {header : BlockHeader} (h : header ∈ db.activeHeaders) :
    header ∈ (List.range (db.tipHeight + 1)).filterMap db.activeHeader := by
  obtain ⟨height, hheader⟩ := h
  refine List.mem_filterMap.2 ⟨height, List.mem_range.2 (Nat.lt_succ_of_le ?_), hheader⟩
  refine Table.le_maxKey (t := db.mainChain) ?_
  cases hid : db.mainId height with
  | none =>
    rw [Db.activeHeader, hid] at hheader
    cases hheader
  | some id => exact Option.isSome_iff_exists.2 ⟨id, hid⟩

end

namespace Node

attribute [local instance] Sample.primitives

/-- A node with two blocks. -/
def longer : Db :=
  let b₁ := Sample.block (genesisBlock Sample.params) NO_SNAPSHOT 1 0 (2 ^ 255)
  (afterBlocks Sample.params (fun _ => 1000)
    [b₁, Sample.block b₁ NO_SNAPSHOT 2 0 (2 ^ 255)]).store.db

/-- A node with another block. -/
def shorter : Db :=
  (afterBlocks Sample.params (fun _ => 1000)
    [Sample.block (genesisBlock Sample.params) NO_SNAPSHOT 1 1 (2 ^ 255)]).store.db

theorem oneHeader_longer_shorter : OneHeader longer shorter := by
  have hall : ∀ h ∈ (List.range (longer.tipHeight + 1)).filterMap longer.activeHeader ++
      (List.range (shorter.tipHeight + 1)).filterMap shorter.activeHeader,
      ∀ k ∈ (List.range (longer.tipHeight + 1)).filterMap longer.activeHeader ++
        (List.range (shorter.tipHeight + 1)).filterMap shorter.activeHeader,
      h.blockId = k.blockId → h = k := by decide +kernel
  have hmem : ∀ h ∈ longer.activeHeaders ∪ shorter.activeHeaders,
      h ∈ (List.range (longer.tipHeight + 1)).filterMap longer.activeHeader ++
        (List.range (shorter.tipHeight + 1)).filterMap shorter.activeHeader := fun h hh =>
    List.mem_append.2 (hh.imp Db.mem_activeHeaders Db.mem_activeHeaders)
  exact fun h hh k hk => hall h (hmem h hh) k (hmem k hk)

/-- They have genesis in common, and the one finds it at the other. -/
theorem locator_finds_split_sample :
    ∃ (f : ℕ) (heights : List ℕ) (ids : List Digest) (s : ℕ),
      IsGreatest {height | Common longer shorter height} f ∧
      longer.locator (genesisBlock Sample.params).blockId = .ok (ids.map some) ∧
      ids.map some = heights.map longer.mainId ∧
      ids.length ≤ 101 ∧ heights.Pairwise (· > ·) ∧ heights.head? = some longer.tipHeight ∧
      heights.getLast? = some 0 ∧
      s ≤ f ∧ Common longer shorter s ∧
      (shorter.headersAfter ids 2000).map some =
        (List.range' (s + 1) (min 2000 (shorter.tipHeight - s))).map shorter.activeHeader ∧
      (∀ header, (shorter.headersAfter ids 2000).head? = some header →
        longer.mainId s = some header.prevId) ∧
      (longer.tipHeight ≤ f + 9 → s = f) ∧
      (f + 9 < longer.tipHeight → f - s < longer.tipHeight - f) :=
  locator_finds_split (activeChain_afterBlocks Sample.params (fun _ => 1000) _)
    (activeChain_afterBlocks Sample.params (fun _ => 1000) _) oneHeader_longer_shorter
    (by decide)

end Node

end TalCash
