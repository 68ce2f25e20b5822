import TalCash.Common.Positional
import TalCash.Core.Params
import TalCash.Core.Text
/-!
# Amounts as text

An amount is a number of base units; people write it in coins, with up to
six decimals. `parseAmount` accepts exactly the numerals with at most six
decimals that stand for at most `MAX_AMOUNT` (`parseAmount_eq_ok_iff`), and
`formatAmount` writes the numeral of an amount without superfluous zeros
(`formatAmount_plain`), so amounts pass through text unchanged
(`amounts_exact`).
-/

namespace TalCash

def DECIMALS : ℕ := 6

/-- The digits `int()` converts at most. -/
def MAX_STR_DIGITS : ℕ := 4300

/-! ## Digits -/

/-- `[0-9]`. -/
def isDigit (c : CodePoint) : Bool := 0x30 ≤ c.val && c.val ≤ 0x39

/-- The value of a digit. -/
def digitValue (c : CodePoint) : ℕ := c.val - 0x30

/-- The digit of a value below ten. -/
def digitOf (d : ℕ) : CodePoint := (text "0123456789").getD d (ord '0')

/-- The number a text of digits stands for. -/
def numeral (t : Text) : ℕ := Positional.value 10 (t.map digitValue)

/-- `str(n)`. -/
def decimal (n : ℕ) : Text :=
  if n = 0 then [ord '0'] else (Positional.digits 10 n).map digitOf

/-- `int(t)`, of a text of digits. -/
def parseInt (t : Text) : Except PyError ℕ :=
  let n := t.length
  if MAX_STR_DIGITS < n then
    .error (.value (s!"Exceeds the limit ({MAX_STR_DIGITS} digits) for integer string " ++
      s!"conversion: value has {n} digits; use sys.set_int_max_str_digits() to increase the limit"))
  else .ok (numeral t)

/-! ## Reading and writing amounts -/

/-- `"."`. -/
def POINT : CodePoint := ord '.'

/-- `text.ljust(DECIMALS, "0")`. -/
def ljust (t : Text) : Text := t ++ List.replicate (DECIMALS - t.length) (ord '0')

/-- The groups of a match of `_AMOUNT_RE`; its `$` also matches before a
newline at the end. -/
def matchAmount (t : Text) : Option (Text × Text) :=
  let body := if t.getLast? = some (ord '\n') then t.dropLast else t
  let whole := body.takeWhile isDigit
  if whole = [] then none
  else
    match body.dropWhile isDigit with
    | [] => some (whole, [])
    | point :: frac =>
      if point = POINT ∧ frac.all isDigit ∧ 1 ≤ frac.length ∧ frac.length ≤ DECIMALS then
        some (whole, frac)
      else none

/-- `parse_amount`. -/
def parseAmount [Unicode] (t : Text) : Except PyError ℕ :=
  let shown := Unicode.repr t
  match matchAmount (strip t) with
  | none => .error (.value s!"invalid amount {shown} (use up to {DECIMALS} decimals, no sign)")
  | some (whole, frac) => do
    let coins ← parseInt whole
    let rest ← parseInt (ljust frac)
    let units := coins * COIN + rest
    if MAX_AMOUNT < units then .error (.value s!"amount {shown} is too large")
    else .ok units

/-- `f"{frac:06d}"`. -/
def sixDigits (frac : ℕ) : Text :=
  List.replicate (DECIMALS - (decimal frac).length) (ord '0') ++ decimal frac

/-- `format_amount`. -/
def formatAmount (units : ℤ) (isFixed : Bool) : Text :=
  let sign := if units < 0 then [ord '-'] else []
  let whole := units.natAbs / COIN
  let frac := units.natAbs % COIN
  let fracText := if !isFixed then (sixDigits frac).rdropWhile (· == ord '0') else sixDigits frac
  if fracText ≠ [] then sign ++ decimal whole ++ POINT :: fracText else sign ++ decimal whole

/-! ## Numbers and their digits -/

theorem digitValue_lt {c : CodePoint} (h : isDigit c = true) : digitValue c < 10 := by
  simp only [isDigit, Bool.and_eq_true, decide_eq_true_eq] at h
  rw [digitValue]
  omega

theorem digitOf_spec {d : ℕ} (h : d < 10) :
    isDigit (digitOf d) = true ∧ digitValue (digitOf d) = d := by
  have hall : ∀ d < 10, isDigit (digitOf d) = true ∧ digitValue (digitOf d) = d := by decide
  exact hall d h

theorem digitOf_eq_zero_iff {d : ℕ} (h : d < 10) : digitOf d = ord '0' ↔ d = 0 := by
  constructor
  · intro he
    have hv := (digitOf_spec h).2
    rw [he] at hv
    exact hv.symm
  · rintro rfl
    rfl

theorem digitOf_digitValue {c : CodePoint} (h : isDigit c = true) : digitOf (digitValue c) = c := by
  obtain ⟨hdigit, hvalue⟩ := digitOf_spec (digitValue_lt h)
  have hval : (digitOf (digitValue c)).val - 0x30 = c.val - 0x30 := hvalue
  simp only [isDigit, Bool.and_eq_true, decide_eq_true_eq] at h hdigit
  exact Fin.ext (by omega)

/-- Digits are given by their values. -/
theorem map_digitOf_map {t : Text} (h : ∀ c ∈ t, isDigit c = true) :
    (t.map digitValue).map digitOf = t := by
  rw [List.map_map]
  conv_rhs => rw [← List.map_id t]
  exact List.map_congr_left fun c hc => digitOf_digitValue (h c hc)

theorem numeral_append (t t' : Text) :
    numeral (t ++ t') = numeral t * 10 ^ t'.length + numeral t' := by
  rw [numeral, List.map_append, Positional.value_append, List.length_map]
  rfl

theorem numeral_zeros (n : ℕ) : numeral (List.replicate n (ord '0')) = 0 := by
  have := Positional.value_replicate_zero_append (b := 10) n []
  rw [List.append_nil] at this
  rw [numeral, List.map_replicate]
  exact this

theorem numeral_lt {t : Text} (h : ∀ c ∈ t, isDigit c = true) : numeral t < 10 ^ t.length := by
  rw [← t.length_map digitValue]
  refine Positional.value_lt fun d hd => ?_
  obtain ⟨c, hc, rfl⟩ := List.mem_map.1 hd
  exact digitValue_lt (h c hc)

/-! ## `str` of a number -/

theorem isDigit_of_mem_decimal {n : ℕ} {c : CodePoint} (h : c ∈ decimal n) : isDigit c = true := by
  rw [decimal] at h
  split at h
  · rw [List.mem_singleton.1 h]
    decide
  · obtain ⟨d, hd, rfl⟩ := List.mem_map.1 h
    exact (digitOf_spec (Positional.digits_lt (by omega) hd)).1

theorem decimal_ne_nil (n : ℕ) : decimal n ≠ [] := by
  rw [decimal]
  split
  · exact List.cons_ne_nil _ _
  · intro h
    have hv := Positional.value_digits (b := 10) n
    rw [List.map_eq_nil_iff.1 h] at hv
    exact absurd hv.symm ‹_›

theorem numeral_decimal (n : ℕ) : numeral (decimal n) = n := by
  rw [decimal]
  split
  · rename_i h
    rw [h]
    rfl
  · have hmap : (Positional.digits 10 n).map (digitValue ∘ digitOf) = Positional.digits 10 n := by
      conv_rhs => rw [← List.map_id (Positional.digits 10 n)]
      exact List.map_congr_left fun d hd =>
        (digitOf_spec (Positional.digits_lt (by omega) hd)).2
    rw [numeral, List.map_map, hmap, Positional.value_digits]

/-- A number has no leading zeros. -/
theorem decimal_head {n : ℕ} (h : (decimal n).head? = some (ord '0')) : decimal n = [ord '0'] := by
  rw [decimal] at h ⊢
  split
  · rfl
  · rename_i hn
    rw [if_neg hn, List.head?_map, Option.map_eq_some_iff] at h
    obtain ⟨d, hd, hzero⟩ := h
    have hlt : d < 10 := Positional.digits_lt (by omega) (List.mem_of_head? hd)
    exact absurd ((digitOf_eq_zero_iff hlt).1 hzero) (Positional.head_digits_ne_zero hd)

theorem length_decimal_le {n k : ℕ} (hk : 1 ≤ k) (h : n < 10 ^ k) : (decimal n).length ≤ k := by
  rw [decimal]
  split
  · exact hk
  · rw [List.length_map]
    exact Positional.length_digits_le (by omega) h

/-- The digits of a number are among those it was read from. -/
theorem mem_of_mem_decimal {t : Text} (hne : t ≠ []) (h : ∀ c ∈ t, isDigit c = true)
    {c : CodePoint} (hc : c ∈ decimal (numeral t)) : c ∈ t := by
  have hvalues : ∀ d ∈ t.map digitValue, d < 10 := by
    intro d hd
    obtain ⟨c, hc, rfl⟩ := List.mem_map.1 hd
    exact digitValue_lt (h c hc)
  have hsplit := Positional.padded_leading_value (by omega) hvalues
  rw [Positional.padded, ← numeral] at hsplit
  rw [decimal] at hc
  split at hc
  · rename_i hzero
    rw [hzero, Positional.digits_zero, List.append_nil] at hsplit
    obtain ⟨c', hc'⟩ := List.exists_mem_of_ne_nil t hne
    have hmem : digitValue c' ∈ t.map digitValue := List.mem_map_of_mem hc'
    rw [← hsplit] at hmem
    have hdigit := digitOf_digitValue (h c' hc')
    rw [List.eq_of_mem_replicate hmem] at hdigit
    rw [List.mem_singleton.1 hc, show ord '0' = digitOf 0 from rfl, hdigit]
    exact hc'
  · obtain ⟨d, hd, rfl⟩ := List.mem_map.1 hc
    have hmem : d ∈ t.map digitValue := by
      rw [← hsplit]
      exact List.mem_append_right _ hd
    obtain ⟨c', hc', rfl⟩ := List.mem_map.1 hmem
    rw [digitOf_digitValue (h c' hc')]
    exact hc'

/-! ## Padding and stripping -/

theorem numeral_ljust {frac : Text} :
    numeral (ljust frac) = numeral frac * 10 ^ (DECIMALS - frac.length) := by
  rw [ljust, numeral_append, numeral_zeros, List.length_replicate, Nat.add_zero]

theorem length_ljust {frac : Text} (h : frac.length ≤ DECIMALS) :
    (ljust frac).length = DECIMALS := by
  rw [ljust, List.length_append, List.length_replicate]
  omega

theorem length_sixDigits {frac : ℕ} (h : frac < COIN) : (sixDigits frac).length = DECIMALS := by
  have := length_decimal_le (k := DECIMALS) (by decide) h
  rw [sixDigits, List.length_append, List.length_replicate]
  omega

theorem numeral_sixDigits (frac : ℕ) : numeral (sixDigits frac) = frac := by
  rw [sixDigits, numeral_append, numeral_zeros, Nat.zero_mul, Nat.zero_add, numeral_decimal]

theorem isDigit_of_mem_sixDigits {frac : ℕ} {c : CodePoint} (h : c ∈ sixDigits frac) :
    isDigit c = true := by
  rcases List.mem_append.1 h with h | h
  · rw [List.eq_of_mem_replicate h]
    decide
  · exact isDigit_of_mem_decimal h

/-- Six digits are given by their number. -/
theorem sixDigits_numeral {t : Text} (hlen : t.length = DECIMALS)
    (h : ∀ c ∈ t, isDigit c = true) : sixDigits (numeral t) = t := by
  have hlt : numeral t < COIN := by
    have := numeral_lt h
    rwa [hlen] at this
  have hfixed : ∀ t : Text, t.length = DECIMALS → (∀ c ∈ t, isDigit c = true) →
      Positional.fixed 10 DECIMALS (numeral t) = t.map digitValue := by
    intro t hlen h
    have hlt : ∀ d ∈ t.map digitValue, d < 10 := fun d hd => by
      obtain ⟨c, hc, rfl⟩ := List.mem_map.1 hd
      exact digitValue_lt (h c hc)
    have hvalue := Positional.fixed_value hlt
    rwa [List.length_map, hlen] at hvalue
  have hsix : ∀ c ∈ sixDigits (numeral t), isDigit c = true := fun c hc =>
    isDigit_of_mem_sixDigits hc
  have hvalues : (sixDigits (numeral t)).map digitValue = t.map digitValue := by
    rw [← hfixed _ (length_sixDigits hlt) hsix, numeral_sixDigits, hfixed t hlen h]
  rw [← map_digitOf_map hsix, hvalues, map_digitOf_map h]

/-- What `rstrip` takes off, `ljust` puts back. -/
theorem ljust_rdropWhile {frac : Text} (h : frac.length = DECIMALS) :
    ljust (frac.rdropWhile (· == ord '0')) = frac := by
  obtain ⟨zeros, hzeros⟩ : ∃ n, frac.rtakeWhile (· == ord '0') = List.replicate n (ord '0') :=
    ⟨_, List.eq_replicate_iff.2 ⟨rfl, fun c hc =>
      beq_iff_eq.1 (List.mem_rtakeWhile_imp (p := (· == ord '0')) hc)⟩⟩
  have hsplit : frac.rdropWhile (· == ord '0') ++ List.replicate zeros (ord '0') = frac := by
    rw [← hzeros, List.rdropWhile_append_rtakeWhile]
  have hlen := congrArg List.length hsplit
  rw [List.length_append, List.length_replicate, h] at hlen
  rw [ljust, show DECIMALS - (frac.rdropWhile (· == ord '0')).length = zeros by omega, hsplit]

/-! ## Numerals -/

/-- A numeral: digits, and where there are decimals a point and those. -/
def written (whole frac : Text) : Text := if frac = [] then whole else whole ++ POINT :: frac

/-- The two parts of a numeral. -/
structure IsNumeral (whole frac : Text) : Prop where
  whole_ne : whole ≠ []
  whole_digits : ∀ c ∈ whole, isDigit c = true
  frac_digits : ∀ c ∈ frac, isDigit c = true

/-- A text is a numeral, apart from the white space around it. -/
def Spells (t whole frac : Text) : Prop := IsNumeral whole frac ∧ strip t = written whole frac

/-- The number a numeral stands for. -/
def number (whole frac : Text) : ℚ := numeral whole + numeral frac / 10 ^ frac.length

/-- No zeros before the number or behind its decimals. -/
structure Plain (whole frac : Text) : Prop where
  numeral : IsNumeral whole frac
  whole_head : whole.head? = some (ord '0') → whole = [ord '0']
  frac_last : frac.getLast? ≠ some (ord '0')

theorem not_isSpace_of_isDigit {c : CodePoint} (h : isDigit c = true) : isSpace c = false := by
  simp only [isDigit, Bool.and_eq_true, decide_eq_true_eq] at h
  simp only [isSpace, Bool.or_eq_false_iff, Bool.and_eq_false_iff, decide_eq_false_iff_not,
    beq_eq_false_iff_ne]
  omega

/-- A text between two characters that are no white space. -/
theorem strip_eq_self {t : Text} (hhead : ∀ c, t.head? = some c → isSpace c = false)
    (hlast : ∀ c, t.getLast? = some c → isSpace c = false) : strip t = t := by
  have hdrop : t.dropWhile isSpace = t := by
    cases t with
    | nil => rfl
    | cons c t => rw [List.dropWhile_cons_of_neg (by rw [hhead c rfl]; exact Bool.false_ne_true)]
  rw [strip, hdrop, List.rdropWhile_eq_self_iff]
  intro hne
  rw [hlast _ (List.getLast?_eq_getLast_of_ne_nil hne)]
  exact Bool.false_ne_true

namespace IsNumeral

variable {whole frac : Text}

theorem head?_written (h : IsNumeral whole frac) {c : CodePoint}
    (hc : (written whole frac).head? = some c) : isDigit c = true := by
  rw [written] at hc
  split at hc
  · exact h.whole_digits c (List.mem_of_head? hc)
  · rw [List.head?_append_of_ne_nil _ h.whole_ne] at hc
    exact h.whole_digits c (List.mem_of_head? hc)

theorem getLast?_written (h : IsNumeral whole frac) {c : CodePoint}
    (hc : (written whole frac).getLast? = some c) : isDigit c = true := by
  rw [written] at hc
  split at hc
  · exact h.whole_digits c (List.mem_of_getLast? hc)
  · rename_i hne
    rw [List.getLast?_append_of_ne_nil _ (List.cons_ne_nil _ _),
      List.getLast?_cons_of_ne_nil hne] at hc
    exact h.frac_digits c (List.mem_of_getLast? hc)

/-- Numerals have no white space around them. -/
theorem strip_written (h : IsNumeral whole frac) :
    strip (written whole frac) = written whole frac :=
  strip_eq_self (fun _ hc => not_isSpace_of_isDigit (h.head?_written hc)) fun _ hc =>
    not_isSpace_of_isDigit (h.getLast?_written hc)

/-- The digits before the point. -/
theorem takeWhile_written (h : IsNumeral whole frac) :
    (written whole frac).takeWhile isDigit = whole := by
  rw [written]
  split
  · exact List.takeWhile_eq_self_iff.2 h.whole_digits
  · rw [List.takeWhile_append_of_pos h.whole_digits, List.takeWhile_cons_of_neg (by decide),
      List.append_nil]

/-- The point and the decimals. -/
theorem dropWhile_written (h : IsNumeral whole frac) :
    (written whole frac).dropWhile isDigit = if frac = [] then [] else POINT :: frac := by
  rw [written]
  split
  · exact List.dropWhile_eq_nil_iff.2 h.whole_digits
  · rw [List.dropWhile_append_of_pos h.whole_digits, List.dropWhile_cons_of_neg (by decide)]

/-- A text is a numeral in one way. -/
theorem written_inj {whole' frac' : Text} (h : IsNumeral whole frac) (h' : IsNumeral whole' frac')
    (heq : written whole frac = written whole' frac') : whole = whole' ∧ frac = frac' := by
  have hdrop := h.dropWhile_written
  rw [heq, h'.dropWhile_written] at hdrop
  refine ⟨by rw [← h.takeWhile_written, heq, h'.takeWhile_written], ?_⟩
  split at hdrop <;> split at hdrop
  · rename_i hfrac' hfrac
    exact hfrac.trans hfrac'.symm
  · cases hdrop
  · cases hdrop
  · exact (List.cons_injective hdrop).symm

/-- **The pattern finds the two parts** of a numeral with at most six
decimals. -/
theorem matchAmount_written (h : IsNumeral whole frac) (hlen : frac.length ≤ DECIMALS) :
    matchAmount (written whole frac) = some (whole, frac) := by
  have hlast : (written whole frac).getLast? ≠ some (ord '\n') := fun he =>
    absurd (h.getLast?_written he) (by decide)
  rw [matchAmount, if_neg hlast, h.takeWhile_written, h.dropWhile_written, if_neg h.whole_ne]
  by_cases hfrac : frac = []
  · rw [if_pos hfrac, hfrac]
  · rw [if_neg hfrac]
    exact if_pos ⟨rfl, List.all_eq_true.2 h.frac_digits, List.length_pos_of_ne_nil hfrac, hlen⟩

end IsNumeral

/-- A text without a newline at its end that matches is a numeral. -/
theorem written_of_matchAmount {t whole frac : Text} (hlast : t.getLast? ≠ some (ord '\n'))
    (h : matchAmount t = some (whole, frac)) :
    IsNumeral whole frac ∧ frac.length ≤ DECIMALS ∧ t = written whole frac := by
  rw [matchAmount, if_neg hlast] at h
  have hdigits : ∀ c ∈ t.takeWhile isDigit, isDigit c = true := fun _ hc =>
    List.mem_takeWhile_imp hc
  have hsplit := List.takeWhile_append_dropWhile (p := isDigit) (l := t)
  split at h
  · cases h
  · rename_i hne
    split at h
    · rename_i hrest
      cases h
      rw [hrest, List.append_nil] at hsplit
      exact ⟨⟨hne, hdigits, fun c hc => absurd hc List.not_mem_nil⟩, Nat.zero_le _,
        by rw [written, if_pos rfl, hsplit]⟩
    · rename_i point rest hrest
      split at h
      · rename_i hcond
        obtain ⟨rfl, hall, hpos, hle⟩ := hcond
        cases h
        refine ⟨⟨hne, hdigits, List.all_eq_true.1 hall⟩, hle, ?_⟩
        rw [written, if_neg (List.ne_nil_of_length_pos hpos), ← hrest, hsplit]
      · cases h

/-- `strip` leaves no newline. -/
theorem getLast?_strip (t : Text) : (strip t).getLast? ≠ some (ord '\n') := by
  intro h
  have hne : strip t ≠ [] := by
    intro he
    rw [he] at h
    cases h
  have hlast := List.rdropWhile_last_not isSpace (t.dropWhile isSpace) hne
  rw [List.getLast?_eq_getLast_of_ne_nil hne, Option.some.injEq] at h
  have hnewline : (List.rdropWhile isSpace (t.dropWhile isSpace)).getLast hne = ord '\n' := h
  rw [hnewline] at hlast
  exact hlast (by decide)

/-! ## What the reader accepts -/

theorem parseInt_of_le {t : Text} (h : t.length ≤ MAX_STR_DIGITS) :
    parseInt t = .ok (numeral t) := if_neg (not_lt.2 h)

theorem parseInt_of_lt {t : Text} (h : MAX_STR_DIGITS < t.length) :
    ∃ detail, parseInt t = .error (.value detail) := ⟨_, if_pos h⟩

/-- The amount a numeral with at most six decimals stands for. -/
def unitsOf (whole frac : Text) : ℕ := numeral whole * COIN + numeral (ljust frac)

theorem unitsOf_eq {whole frac : Text} (h : frac.length ≤ DECIMALS) :
    (unitsOf whole frac : ℚ) = number whole frac * 10 ^ 6 := by
  have hpow : (10 : ℚ) ^ 6 = 10 ^ (DECIMALS - frac.length) * 10 ^ frac.length := by
    rw [← pow_add, Nat.sub_add_cancel h, DECIMALS]
  have hcoin : ((COIN : ℕ) : ℚ) = 10 ^ 6 := by norm_num [COIN]
  have hpos : (10 : ℚ) ^ frac.length ≠ 0 := pow_ne_zero _ (by norm_num)
  rw [unitsOf, numeral_ljust, number, add_mul, Nat.cast_add, Nat.cast_mul, Nat.cast_mul, hcoin,
    Nat.cast_pow]
  congr 1
  rw [hpow]
  field_simp
  norm_num

section

variable [Unicode]

/-- What `parseAmount` does with a numeral. -/
theorem parseAmount_written {t whole frac : Text} (h : Spells t whole frac)
    (hlen : frac.length ≤ DECIMALS) (hdigits : whole.length ≤ MAX_STR_DIGITS) :
    parseAmount t =
      if MAX_AMOUNT < unitsOf whole frac then
        .error (.value s!"amount {Unicode.repr t} is too large")
      else .ok (unitsOf whole frac) := by
  have hljust : (ljust frac).length ≤ MAX_STR_DIGITS := by
    rw [length_ljust hlen]
    decide
  rw [parseAmount, h.2, h.1.matchAmount_written hlen]
  dsimp only
  rw [parseInt_of_le hdigits, ok_bind, parseInt_of_le hljust, ok_bind, unitsOf]

/-- Whatever is refused is refused with `ValueError`; what matches is a
numeral with at most six decimals. -/
theorem parseAmount_cases (t : Text) :
    (∃ whole frac, Spells t whole frac ∧ frac.length ≤ DECIMALS ∧
        whole.length ≤ MAX_STR_DIGITS) ∨
      ∃ detail, parseAmount t = .error (.value detail) := by
  cases hm : matchAmount (strip t) with
  | none => exact .inr ⟨_, by rw [parseAmount, hm]⟩
  | some groups =>
    obtain ⟨whole, frac⟩ := groups
    obtain ⟨hnum, hlen, heq⟩ := written_of_matchAmount (getLast?_strip t) hm
    rcases Nat.lt_or_ge MAX_STR_DIGITS whole.length with hlt | hle
    · obtain ⟨detail, hd⟩ := parseInt_of_lt hlt
      exact .inr ⟨detail, by simp only [parseAmount, hm, hd, error_bind]⟩
    · exact .inl ⟨whole, frac, ⟨hnum, heq⟩, hlen, hle⟩

/-- **What `parseAmount` accepts.** -/
theorem parseAmount_eq_ok_iff {t : Text} {u : ℕ} :
    parseAmount t = .ok u ↔
      u ≤ MAX_AMOUNT ∧ ∃ whole frac, Spells t whole frac ∧ frac.length ≤ DECIMALS ∧
        whole.length ≤ MAX_STR_DIGITS ∧ u = unitsOf whole frac := by
  constructor
  · intro h
    rcases parseAmount_cases t with ⟨whole, frac, hreads, hlen, hdigits⟩ | ⟨detail, hd⟩
    · rw [parseAmount_written hreads hlen hdigits] at h
      split at h
      · cases h
      · rename_i hmax
        cases h
        exact ⟨not_lt.1 hmax, whole, frac, hreads, hlen, hdigits, rfl⟩
    · rw [hd] at h
      cases h
  · rintro ⟨hmax, whole, frac, hreads, hlen, hdigits, rfl⟩
    rw [parseAmount_written hreads hlen hdigits, if_neg (not_lt.2 hmax)]

/-- Every refusal is a `ValueError`. -/
theorem parseAmount_refuses {t : Text} (h : ∀ u, parseAmount t ≠ .ok u) :
    ∃ detail, parseAmount t = .error (.value detail) := by
  rcases parseAmount_cases t with ⟨whole, frac, hreads, hlen, hdigits⟩ | hd
  · rw [parseAmount_written hreads hlen hdigits]
    split
    · exact ⟨_, rfl⟩
    · rename_i hmax
      exact absurd (parseAmount_eq_ok_iff.2
        ⟨not_lt.1 hmax, whole, frac, hreads, hlen, hdigits, rfl⟩) (h _)
  · exact hd

end

/-! ## What the writer gives -/

/-- The two parts `formatAmount` writes. -/
theorem formatAmount_written (u : ℕ) (isFixed : Bool) :
    ∃ frac, formatAmount u isFixed = written (decimal (u / COIN)) frac ∧
      IsNumeral (decimal (u / COIN)) frac ∧ frac.length ≤ DECIMALS ∧
      ljust frac = sixDigits (u % COIN) ∧
      (isFixed = false → frac.getLast? ≠ some (ord '0')) := by
  have hsix := length_sixDigits (Nat.mod_lt u (show 0 < COIN by decide))
  have hsign : ¬ (u : ℤ) < 0 := not_lt.2 (Int.natCast_nonneg u)
  have hwhole : ∀ c ∈ decimal (u / COIN), isDigit c = true := fun c hc => isDigit_of_mem_decimal hc
  cases isFixed with
  | true =>
    have hne : sixDigits (u % COIN) ≠ [] := List.ne_nil_of_length_pos (by rw [hsix]; decide)
    refine ⟨sixDigits (u % COIN), ?_, ⟨decimal_ne_nil _, hwhole, fun c hc =>
      isDigit_of_mem_sixDigits hc⟩, hsix.le, ?_, fun hf => absurd hf.symm Bool.false_ne_true⟩
    · simp only [formatAmount, hsign, Int.natAbs_natCast, written, hne, if_false, List.nil_append,
        Bool.not_true, Bool.false_eq_true, ne_eq, not_false_eq_true, if_true]
    · rw [ljust, hsix, Nat.sub_self, List.replicate_zero, List.append_nil]
  | false =>
    have hpre := List.rdropWhile_prefix (· == ord '0') (sixDigits (u % COIN))
    refine ⟨(sixDigits (u % COIN)).rdropWhile (· == ord '0'), ?_, ⟨decimal_ne_nil _, hwhole,
      fun c hc => isDigit_of_mem_sixDigits (hpre.subset hc)⟩, hpre.length_le.trans hsix.le,
      ljust_rdropWhile hsix, fun _ hlast => ?_⟩
    · simp only [formatAmount, hsign, Int.natAbs_natCast, written, if_false, List.nil_append,
        Bool.not_false, if_true, ne_eq, ite_not]
    · have hne := List.ne_nil_of_mem (List.mem_of_getLast? hlast)
      have hnot := List.rdropWhile_last_not _ _ hne
      rw [List.getLast?_eq_getLast_of_ne_nil hne, Option.some.injEq] at hlast
      rw [hlast] at hnot
      exact hnot (by decide)

theorem unitsOf_formatAmount {u : ℕ} {frac : Text} (h : ljust frac = sixDigits (u % COIN)) :
    unitsOf (decimal (u / COIN)) frac = u := by
  rw [unitsOf, h, numeral_decimal, numeral_sixDigits, Nat.div_add_mod']

/-- **The writer's text is plain**: the numeral of the amount, without
superfluous zeros. -/
theorem formatAmount_plain (u : ℕ) :
    ∃ whole frac, formatAmount u false = written whole frac ∧ Plain whole frac ∧
      number whole frac * 10 ^ 6 = u := by
  obtain ⟨frac, heq, hnum, hlen, hljust, hlast⟩ := formatAmount_written u false
  refine ⟨_, frac, heq, ⟨hnum, decimal_head, hlast rfl⟩, ?_⟩
  rw [← unitsOf_eq hlen, unitsOf_formatAmount hljust]

theorem IsNumeral.isDigit_ljust {whole frac : Text} (h : IsNumeral whole frac) :
    ∀ c ∈ ljust frac, isDigit c = true := by
  intro c hc
  rcases List.mem_append.1 hc with hc | hc
  · exact h.frac_digits c hc
  · rw [List.eq_of_mem_replicate hc]
    decide

theorem unitsOf_div_mod {whole frac : Text} (h : IsNumeral whole frac)
    (hlen : frac.length ≤ DECIMALS) :
    unitsOf whole frac / COIN = numeral whole ∧
      unitsOf whole frac % COIN = numeral (ljust frac) := by
  have hlt := numeral_lt h.isDigit_ljust
  rw [length_ljust hlen] at hlt
  have hcoin : numeral (ljust frac) < COIN := hlt
  have hpos : 0 < COIN := by decide
  rw [unitsOf, Nat.mul_comm, Nat.mul_add_div hpos, Nat.mul_add_mod, Nat.div_eq_of_lt hcoin,
    Nat.mod_eq_of_lt hcoin]
  exact ⟨rfl, rfl⟩

/-- **Writing an amount again uses no new characters.** -/
theorem mem_of_mem_formatAmount {whole frac : Text} (h : IsNumeral whole frac)
    (hlen : frac.length ≤ DECIMALS) {c : CodePoint}
    (hc : c ∈ formatAmount (unitsOf whole frac) false) : c ∈ written whole frac := by
  obtain ⟨hdiv, hmod⟩ := unitsOf_div_mod h hlen
  obtain ⟨frac', heq, hnum, -, hljust, hlast⟩ := formatAmount_written (unitsOf whole frac) false
  rw [hdiv] at heq hnum
  rw [hmod, sixDigits_numeral (length_ljust hlen) h.isDigit_ljust] at hljust
  -- the decimals that are left are the first ones of those there were
  have hpre : frac' <+: frac := by
    have hpre' : frac' <+: ljust frac := hljust ▸ List.prefix_append _ _
    rcases List.prefix_or_prefix_of_prefix hpre' (List.prefix_append frac _) with hle | hle
    · exact hle
    · obtain ⟨rest, rfl⟩ := hle
      rcases List.eq_nil_or_concat' rest with rfl | ⟨rest, last, rfl⟩
      · rw [List.append_nil]
      · unfold ljust at hljust
        rw [List.append_assoc, List.append_cancel_left_eq] at hljust
        have hmem : last ∈ List.replicate (DECIMALS - frac.length) (ord '0') := by
          rw [← hljust]
          exact List.mem_append_left _ (List.mem_append_right _ (List.mem_singleton_self _))
        rw [List.eq_of_mem_replicate hmem, ← List.append_assoc, List.getLast?_concat] at hlast
        exact absurd rfl (hlast rfl)
  have hwhole : ∀ c ∈ decimal (numeral whole), c ∈ whole := fun c hc =>
    mem_of_mem_decimal h.whole_ne h.whole_digits hc
  rw [heq, written] at hc
  rw [written]
  split at hc
  · split
    · exact hwhole c hc
    · exact List.mem_append_left _ (hwhole c hc)
  · rename_i hne
    have hfrac : frac ≠ [] := by
      rintro rfl
      exact hne (List.prefix_nil.1 hpre)
    rw [if_neg hfrac]
    rcases List.mem_append.1 hc with hc | hc
    · exact List.mem_append_left _ (hwhole c hc)
    · refine List.mem_append_right _ ?_
      rcases List.mem_cons.1 hc with rfl | hc
      · exact List.mem_cons_self
      · exact List.mem_cons_of_mem _ (hpre.subset hc)

/-- An amount is read back from what is written for it. -/
theorem parseAmount_formatAmount [Unicode] {u : ℕ} (hu : u ≤ MAX_AMOUNT) (isFixed : Bool) :
    parseAmount (formatAmount u isFixed) = .ok u := by
  obtain ⟨frac, heq, hnum, hlen, hljust, -⟩ := formatAmount_written u isFixed
  have hdigits : (decimal (u / COIN)).length ≤ 19 := length_decimal_le (by omega)
    ((Nat.div_le_self _ _).trans_lt (hu.trans_lt (by norm_num [MAX_AMOUNT])))
  refine parseAmount_eq_ok_iff.2 ⟨hu, _, frac, ⟨hnum, ?_⟩, hlen,
    hdigits.trans (by decide), (unitsOf_formatAmount hljust).symm⟩
  rw [heq, hnum.strip_written]

/-- **Amounts are exact text.** Every amount is read back from what is
written for it, with all decimals or without. A text that is read is a
numeral of that amount, at most `MAX_AMOUNT`, and what is written for the
amount is the numeral of the same number without superfluous zeros. A
numeral of more than `MAX_AMOUNT`, or with more than six decimals, is
refused, as is every text that is not read, with `ValueError`. -/
theorem amounts_exact [Unicode] :
    (∀ u ≤ MAX_AMOUNT, ∀ isFixed, parseAmount (formatAmount u isFixed) = .ok u) ∧
    (∀ t u, parseAmount t = .ok u → u ≤ MAX_AMOUNT ∧
      ∃ whole frac, Spells t whole frac ∧ (u : ℚ) = number whole frac * 10 ^ 6 ∧
      ∃ whole' frac', formatAmount u false = written whole' frac' ∧ Plain whole' frac' ∧
        number whole' frac' = number whole frac) ∧
    (∀ t whole frac, Spells t whole frac →
      (MAX_AMOUNT : ℚ) < number whole frac * 10 ^ 6 ∨ 6 < frac.length →
      ∃ detail, parseAmount t = .error (.value detail)) ∧
    ∀ t, (∀ u, parseAmount t ≠ .ok u) → ∃ detail, parseAmount t = .error (.value detail) := by
  refine ⟨fun u hu isFixed => parseAmount_formatAmount hu isFixed, fun t u h => ?_,
    fun t whole frac hreads hbad => ?_, fun t h => parseAmount_refuses h⟩
  · obtain ⟨hmax, whole, frac, hreads, hlen, -, rfl⟩ := parseAmount_eq_ok_iff.1 h
    obtain ⟨whole', frac', heq, hplain, hnumber⟩ := formatAmount_plain (unitsOf whole frac)
    have hunits : (unitsOf whole frac : ℚ) = number whole frac * 10 ^ 6 := unitsOf_eq hlen
    refine ⟨hmax, whole, frac, hreads, hunits, whole', frac', heq, hplain, ?_⟩
    exact mul_right_cancel₀ (b := (10 : ℚ) ^ 6) (by norm_num) (hnumber.trans hunits)
  · refine parseAmount_refuses fun u hu => ?_
    obtain ⟨hmax, whole', frac', hreads', hlen, -, rfl⟩ := parseAmount_eq_ok_iff.1 hu
    obtain ⟨rfl, rfl⟩ := hreads.1.written_inj hreads'.1 (hreads.2.symm.trans hreads'.2)
    rcases hbad with hbad | hbad
    · rw [← unitsOf_eq hlen, Nat.cast_lt] at hbad
      omega
    · exact absurd hlen (not_le.2 hbad)

attribute [local instance] Sample.unicode

example : (parseAmount (text " 12.50 ")).toOption = some 12500000 := by decide +kernel

example : formatAmount 12500000 false = text "12.5" := by decide +kernel

end TalCash
