import TalCash.Core.Utf8
/-!
# Percent-escapes

`quote` writes a text with the characters that never need an escape;
`unquote` reads escapes, each run of ASCII characters on its own. What is
quoted is read back (`unquote_quote`), and contains neither separators nor
broken escapes.
-/

namespace TalCash

/-- `"%"`. -/
def PERCENT : CodePoint := ord '%'

/-- `_ALWAYS_SAFE`: letters, digits and `_.-~`. -/
def alwaysSafe (b : ℕ) : Bool :=
  (0x41 ≤ b && b ≤ 0x5a) || (0x61 ≤ b && b ≤ 0x7a) || (0x30 ≤ b && b ≤ 0x39) ||
    b == 0x5f || b == 0x2e || b == 0x2d || b == 0x7e

/-- A digit of `%02X`. -/
def hexDigit (d : ℕ) : CodePoint := (text "0123456789ABCDEF").getD d (ord '0')

/-- The value of `[0-9A-Fa-f]`. -/
def hexValue (c : CodePoint) : Option ℕ :=
  if 0x30 ≤ c.val ∧ c.val ≤ 0x39 then some (c.val - 0x30)
  else if 0x41 ≤ c.val ∧ c.val ≤ 0x46 then some (c.val - 0x37)
  else if 0x61 ≤ c.val ∧ c.val ≤ 0x66 then some (c.val - 0x57)
  else none

/-- The text of a byte. -/
def quoteByte (byte : UInt8) : Text :=
  if alwaysSafe byte.toNat then [chr byte.toNat]
  else [PERCENT, hexDigit (byte.toNat / 16), hexDigit (byte.toNat % 16)]

/-- `quote(text, safe="")`. -/
def quote (t : Text) : Except PyError Text := do
  let bytes ← encodeUtf8 t
  pure (bytes.flatMap quoteByte)

/-- `_hextobyte[...]` of two characters. -/
def hexByte (high low : CodePoint) : Option UInt8 :=
  match hexValue high, hexValue low with
  | some h, some l => some (UInt8.ofNat (h * 16 + l))
  | _, _ => none

/-- `unquote_to_bytes`, of ASCII text. -/
def unquoteToBytes : Text → List UInt8
  | c :: high :: low :: rest =>
    match if c = PERCENT then hexByte high low else none with
    | some byte => byte :: unquoteToBytes rest
    | none => UInt8.ofNat c.val :: unquoteToBytes (high :: low :: rest)
  | t => t.map fun c => UInt8.ofNat c.val

/-- An ASCII character. -/
def isAsciiChar (c : CodePoint) : Bool := c.val < 0x80

/-- A run of characters that are all ASCII or all not. -/
def unquoteRun (run : Text) : Option Text :=
  if run.all isAsciiChar then decodeUtf8 (unquoteToBytes run) else some run

/-- `unquote(text, errors="strict")`. -/
def unquote (t : Text) : Option Text :=
  if PERCENT ∉ t then some t
  else do
    let runs ← (t.splitBy fun a b => isAsciiChar a == isAsciiChar b).mapM unquoteRun
    some runs.flatten

/-- Two hex digits follow. -/
def hexFollows : Text → Bool
  | high :: low :: _ => (hexValue high).isSome && (hexValue low).isSome
  | _ => false

/-- `_PERCENT.search(text)`. -/
def hasBrokenEscape : Text → Bool
  | [] => false
  | c :: rest => (c == PERCENT && !hexFollows rest) || hasBrokenEscape rest

/-! ## Bytes -/

theorem alwaysSafe_cases {b : ℕ} (h : alwaysSafe b = true) : b < 0x80 ∧ b ≠ 0x25 := by
  simp only [alwaysSafe, Bool.or_eq_true, Bool.and_eq_true, decide_eq_true_eq, beq_iff_eq] at h
  omega

/-- A safe character is no percent sign. -/
theorem ne_percent {c : CodePoint} (h : alwaysSafe c.val = true) : c ≠ PERCENT := by
  rintro rfl
  exact (alwaysSafe_cases h).2 rfl

theorem hexValue_hexDigit : ∀ d < 16, hexValue (hexDigit d) = some d := by decide

theorem alwaysSafe_hexDigit : ∀ d < 16, alwaysSafe (hexDigit d).val = true := by decide

/-- A character that `quote` writes. -/
def isQuoted (c : CodePoint) : Bool := alwaysSafe c.val || c == PERCENT

theorem isQuoted_of_mem_quoteByte {byte : UInt8} {c : CodePoint} (h : c ∈ quoteByte byte) :
    isQuoted c = true := by
  have hlt : byte.toNat < 256 := byte.toNat_lt
  rw [quoteByte] at h
  split at h
  · rename_i hsafe
    rw [List.mem_singleton.1 h, isQuoted, val_chr (by omega), hsafe]
    rfl
  · simp only [List.mem_cons, List.not_mem_nil, or_false] at h
    rcases h with rfl | rfl | rfl
    · rfl
    · rw [isQuoted, alwaysSafe_hexDigit _ (by omega)]
      rfl
    · rw [isQuoted, alwaysSafe_hexDigit _ (by omega)]
      rfl

/-- What is not a percent sign stands for itself. -/
theorem unquoteToBytes_cons {c : CodePoint} (h : c ≠ PERCENT) (rest : Text) :
    unquoteToBytes (c :: rest) = UInt8.ofNat c.val :: unquoteToBytes rest := by
  cases rest with
  | nil => rfl
  | cons high rest =>
    cases rest with
    | nil => rfl
    | cons low rest => rw [unquoteToBytes, if_neg h]

/-- The text of a byte, in front of others. -/
theorem quoteByte_append (byte : UInt8) (rest : Text) :
    unquoteToBytes (quoteByte byte ++ rest) = byte :: unquoteToBytes rest ∧
      hasBrokenEscape (quoteByte byte ++ rest) = hasBrokenEscape rest := by
  have hlt : byte.toNat < 256 := byte.toNat_lt
  rw [quoteByte]
  split
  · rename_i hsafe
    have hval := val_chr (n := byte.toNat) (by omega)
    have hne : chr byte.toNat ≠ PERCENT := ne_percent (by rw [hval]; exact hsafe)
    rw [List.singleton_append, unquoteToBytes_cons hne, hval, UInt8.ofNat_toNat, hasBrokenEscape,
      beq_eq_false_iff_ne.2 hne]
    exact ⟨rfl, rfl⟩
  · have hhigh : byte.toNat / 16 < 16 := by omega
    have hlow : byte.toNat % 16 < 16 := by omega
    have hhex : hexByte (hexDigit (byte.toNat / 16)) (hexDigit (byte.toNat % 16)) = some byte := by
      rw [hexByte, hexValue_hexDigit _ hhigh, hexValue_hexDigit _ hlow]
      dsimp only
      rw [Nat.div_add_mod', UInt8.ofNat_toNat]
    have hfollows : hexFollows (hexDigit (byte.toNat / 16) :: hexDigit (byte.toNat % 16) :: rest) =
        true := by
      rw [hexFollows, hexValue_hexDigit _ hhigh, hexValue_hexDigit _ hlow]
      rfl
    rw [List.cons_append, List.cons_append, List.singleton_append, unquoteToBytes, if_pos rfl,
      hhex, hasBrokenEscape, hasBrokenEscape, hasBrokenEscape, hfollows,
      beq_eq_false_iff_ne.2 (ne_percent (alwaysSafe_hexDigit _ hhigh)),
      beq_eq_false_iff_ne.2 (ne_percent (alwaysSafe_hexDigit _ hlow))]
    exact ⟨rfl, by simp⟩

theorem unquoteToBytes_quote (bytes : List UInt8) :
    unquoteToBytes (bytes.flatMap quoteByte) = bytes := by
  induction bytes with
  | nil => rfl
  | cons byte bytes ih => rw [List.flatMap_cons, (quoteByte_append _ _).1, ih]

theorem hasBrokenEscape_quote (bytes : List UInt8) :
    hasBrokenEscape (bytes.flatMap quoteByte) = false := by
  induction bytes with
  | nil => rfl
  | cons byte bytes ih => rw [List.flatMap_cons, (quoteByte_append _ _).2, ih]

/-! ## Texts -/

theorem isAsciiChar_of_isQuoted {c : CodePoint} (h : isQuoted c = true) : isAsciiChar c = true := by
  rw [isQuoted, Bool.or_eq_true, beq_iff_eq] at h
  rcases h with h | rfl
  · exact decide_eq_true (alwaysSafe_cases h).1
  · decide

/-- An ASCII text without percent signs is read as its bytes. -/
theorem decodeUtf8_of_ascii {t : Text} (hascii : ∀ c ∈ t, isAsciiChar c = true)
    (h : PERCENT ∉ t) : decodeUtf8 (unquoteToBytes t) = some t := by
  have hno : NoSurrogate t := fun c hc => by
    have hlt : c.val < 0x80 := of_decide_eq_true (hascii c hc)
    rw [isSurrogate, Bool.and_eq_false_iff, decide_eq_false_iff_not]
    exact .inl (by omega)
  have hbytes : unquoteToBytes t = t.flatMap fun c => utf8Bytes c.val := by
    clear hno
    induction t with
    | nil => rfl
    | cons c t ih =>
      obtain ⟨hc, hrest⟩ := List.forall_mem_cons.1 hascii
      have hlt : c.val < 0x80 := of_decide_eq_true hc
      have hne : c ≠ PERCENT := fun he => h (he ▸ List.mem_cons_self)
      rw [unquoteToBytes_cons hne, ih hrest fun hm => h (List.mem_cons_of_mem _ hm),
        List.flatMap_cons, utf8Bytes, if_pos hlt]
      rfl
  rw [hbytes]
  exact decodeUtf8_encodeUtf8 (if_pos hno)

/-- **What is quoted is read back.** -/
theorem unquote_quote {t q : Text} (h : quote t = .ok q) :
    unquote q = some t ∧ hasBrokenEscape q = false ∧ ∀ c ∈ q, isQuoted c = true := by
  obtain ⟨bytes, hbytes, hq⟩ := bind_eq_ok.1 h
  cases hq
  have hquoted : ∀ c ∈ bytes.flatMap quoteByte, isQuoted c = true := by
    intro c hc
    obtain ⟨byte, -, hc⟩ := List.mem_flatMap.1 hc
    exact isQuoted_of_mem_quoteByte hc
  have hascii : ∀ c ∈ bytes.flatMap quoteByte, isAsciiChar c = true := fun c hc =>
    isAsciiChar_of_isQuoted (hquoted c hc)
  have hdecode : decodeUtf8 (unquoteToBytes (bytes.flatMap quoteByte)) = some t := by
    rw [unquoteToBytes_quote]
    exact decodeUtf8_encodeUtf8 hbytes
  refine ⟨?_, hasBrokenEscape_quote bytes, hquoted⟩
  rw [unquote]
  split
  · rename_i hno
    rw [← hdecode, decodeUtf8_of_ascii hascii hno]
  · rename_i hpercent
    have hne : bytes.flatMap quoteByte ≠ [] := by
      intro he
      rw [he] at hpercent
      exact hpercent List.not_mem_nil
    have hchain : (bytes.flatMap quoteByte).IsChain fun a b =>
        (isAsciiChar a == isAsciiChar b) = true := by
      refine (List.pairwise_of_forall_mem_list fun a ha b hb => ?_).isChain
      rw [hascii a ha, hascii b hb]
      rfl
    have hrun : unquoteRun (bytes.flatMap quoteByte) = some t := by
      rw [unquoteRun, if_pos (List.all_eq_true.2 hascii), hdecode]
    rw [List.splitBy_of_isChain hne hchain, List.mapM_cons, hrun]
    simp

theorem unquoteToBytes_ne_nil {t : Text} (h : t ≠ []) : unquoteToBytes t ≠ [] := by
  cases t with
  | nil => exact absurd rfl h
  | cons c t =>
    by_cases hc : c = PERCENT
    · rcases t with _ | ⟨high, _ | ⟨low, rest⟩⟩
      · exact List.cons_ne_nil _ _
      · exact List.cons_ne_nil _ _
      · rw [unquoteToBytes]
        split
        · exact List.cons_ne_nil _ _
        · exact List.cons_ne_nil _ _
    · rw [unquoteToBytes_cons hc]
      exact List.cons_ne_nil _ _

/-- Only the empty text is read as the empty text. -/
theorem unquote_ne_nil {raw value : Text} (hne : raw ≠ []) (h : unquote raw = some value) :
    value ≠ [] := by
  rw [unquote] at h
  split at h
  · cases h
    exact hne
  · obtain ⟨runs, hruns, hflat⟩ := Option.bind_eq_some_iff.1 h
    cases hflat
    cases hsplit : raw.splitBy fun a b => isAsciiChar a == isAsciiChar b with
    | nil => exact absurd (List.splitBy_eq_nil.1 hsplit) hne
    | cons run rest =>
      have hrun : run ≠ [] :=
        List.ne_nil_of_mem_splitBy (hsplit ▸ List.mem_cons_self)
      rw [hsplit, List.mapM_cons, Option.bind_eq_bind, Option.bind_eq_some_iff] at hruns
      obtain ⟨out, hout, hruns⟩ := hruns
      rw [Option.bind_eq_bind, Option.bind_eq_some_iff] at hruns
      obtain ⟨outs, -, hruns⟩ := hruns
      cases hruns
      have hne' : out ≠ [] := by
        rw [unquoteRun] at hout
        split at hout
        · exact decodeUtf8_ne_nil (unquoteToBytes_ne_nil hrun) hout
        · cases hout
          exact hrun
      rw [List.flatten_cons]
      exact List.append_ne_nil_of_left_ne_nil hne' _

theorem hasBrokenEscape_of_not_mem {t : Text} (h : PERCENT ∉ t) : hasBrokenEscape t = false := by
  induction t with
  | nil => rfl
  | cons c t ih =>
    have hne : c ≠ PERCENT := fun he => h (he ▸ List.mem_cons_self)
    rw [hasBrokenEscape, beq_eq_false_iff_ne.2 hne, ih fun hm => h (List.mem_cons_of_mem _ hm)]
    rfl

/-! ## Lengths -/

/-- The characters `quote` writes for a text. -/
def quotedLength (t : Text) : ℕ :=
  ((t.flatMap fun c => utf8Bytes c.val).map fun byte =>
    if alwaysSafe byte.toNat then 1 else 3).sum

theorem length_quote {t q : Text} (h : quote t = .ok q) : q.length = quotedLength t := by
  have hbyte : ∀ byte : UInt8,
      (quoteByte byte).length = if alwaysSafe byte.toNat then 1 else 3 := by
    intro byte
    rw [quoteByte]
    split
    · rfl
    · rfl
  obtain ⟨bytes, hbytes, hq⟩ := bind_eq_ok.1 h
  cases hq
  rw [encodeUtf8] at hbytes
  split at hbytes
  · cases hbytes
    rw [List.length_flatMap, quotedLength]
    exact congrArg List.sum (List.map_congr_left fun byte _ => hbyte byte)
  · cases hbytes

/-- A text without lone surrogates is quoted, and only such a text. -/
theorem quote_isOk_iff {t : Text} : (∃ q, quote t = .ok q) ↔ NoSurrogate t := by
  constructor
  · rintro ⟨q, h⟩
    obtain ⟨bytes, hbytes, -⟩ := bind_eq_ok.1 h
    rw [encodeUtf8] at hbytes
    split at hbytes
    · assumption
    · cases hbytes
  · intro h
    rw [quote, encodeUtf8, if_pos h]
    exact ⟨_, rfl⟩

end TalCash
