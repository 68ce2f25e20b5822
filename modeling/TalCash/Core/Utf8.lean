import TalCash.Core.Primitives
import TalCash.Core.Text
/-!
# UTF-8

`encodeUtf8` writes every text without lone surrogates, and `decodeUtf8`,
which refuses whatever is not well formed, reads back what is written
(`decodeUtf8_encodeUtf8`).
-/

namespace TalCash

/-- The bytes of a code point that is no surrogate. -/
def utf8Bytes (c : ℕ) : List UInt8 :=
  if c < 0x80 then [UInt8.ofNat c]
  else if c < 0x800 then [UInt8.ofNat (0xc0 + c / 0x40), UInt8.ofNat (0x80 + c % 0x40)]
  else if c < 0x10000 then
    [UInt8.ofNat (0xe0 + c / 0x1000), UInt8.ofNat (0x80 + c / 0x40 % 0x40),
      UInt8.ofNat (0x80 + c % 0x40)]
  else
    [UInt8.ofNat (0xf0 + c / 0x40000), UInt8.ofNat (0x80 + c / 0x1000 % 0x40),
      UInt8.ofNat (0x80 + c / 0x40 % 0x40), UInt8.ofNat (0x80 + c % 0x40)]

/-- A lone surrogate. -/
def isSurrogate (c : ℕ) : Bool := 0xd800 ≤ c && c ≤ 0xdfff

/-- No lone surrogates. -/
def NoSurrogate (t : Text) : Prop := ∀ c ∈ t, isSurrogate c.val = false

instance (t : Text) : Decidable (NoSurrogate t) :=
  List.decidableBAll (fun c : CodePoint => isSurrogate c.val = false) t

/-- `text.encode("utf-8")`; `UnicodeEncodeError` is a `ValueError`. -/
def encodeUtf8 (t : Text) : Except PyError (List UInt8) :=
  if NoSurrogate t then .ok (t.flatMap fun c => utf8Bytes c.val)
  else .error (.value "'utf-8' codec can't encode: surrogates not allowed")

/-- What a decoder has read: the text so far, and of an unfinished sequence
how many bytes are to come, its value and the least value it may have. -/
structure Utf8State where
  out : Text
  need : ℕ
  value : ℕ
  least : ℕ

/-- One byte. -/
def utf8Step (s : Utf8State) (byte : UInt8) : Option Utf8State :=
  let b := byte.toNat
  if s.need = 0 then
    if b < 0x80 then some { s with out := s.out ++ [chr b] }
    else if b < 0xc0 then none
    else if b < 0xe0 then some ⟨s.out, 1, b - 0xc0, 0x80⟩
    else if b < 0xf0 then some ⟨s.out, 2, b - 0xe0, 0x800⟩
    else if b < 0xf8 then some ⟨s.out, 3, b - 0xf0, 0x10000⟩
    else none
  else if b < 0x80 ∨ 0xc0 ≤ b then none
  else
    let value := s.value * 0x40 + (b - 0x80)
    if s.need = 1 then
      if s.least ≤ value ∧ value < 0x110000 ∧ isSurrogate value = false then
        some ⟨s.out ++ [chr value], 0, 0, 0⟩
      else none
    else some ⟨s.out, s.need - 1, value, s.least⟩

/-- `bytes.decode("utf-8")`, strict. -/
def decodeUtf8 (bytes : List UInt8) : Option Text :=
  (bytes.foldlM utf8Step ⟨[], 0, 0, 0⟩).bind fun s => if s.need = 0 then some s.out else none

/-! ## What is written is read back -/

theorem toNat_ofNat {b : ℕ} (h : b < 0x100) : (UInt8.ofNat b).toNat = b := Nat.mod_eq_of_lt h

/-- A byte that stands for itself. -/
theorem utf8Step_ascii (out : Text) {b : ℕ} (h : b < 0x80) :
    utf8Step ⟨out, 0, 0, 0⟩ (UInt8.ofNat b) = some ⟨out ++ [chr b], 0, 0, 0⟩ := by
  have hb : (UInt8.ofNat b).toNat = b := toNat_ofNat (by omega)
  unfold utf8Step
  rw [if_pos rfl, hb, if_pos h]

/-- The first byte of a sequence. -/
theorem utf8Step_lead (out : Text) {b need value least : ℕ}
    (h : (0xc0 ≤ b ∧ b < 0xe0 ∧ need = 1 ∧ value = b - 0xc0 ∧ least = 0x80) ∨
      (0xe0 ≤ b ∧ b < 0xf0 ∧ need = 2 ∧ value = b - 0xe0 ∧ least = 0x800) ∨
      (0xf0 ≤ b ∧ b < 0xf8 ∧ need = 3 ∧ value = b - 0xf0 ∧ least = 0x10000)) :
    utf8Step ⟨out, 0, 0, 0⟩ (UInt8.ofNat b) = some ⟨out, need, value, least⟩ := by
  have hb : (UInt8.ofNat b).toNat = b := toNat_ofNat (by omega)
  simp only [utf8Step, hb, if_true]
  rcases h with ⟨h1, h2, hn, hv, hl⟩ | ⟨h1, h2, hn, hv, hl⟩ | ⟨h1, h2, hn, hv, hl⟩
  · rw [if_neg (by omega), if_neg (by omega), if_pos h2, hn, hv, hl]
  · rw [if_neg (by omega), if_neg (by omega), if_neg (by omega), if_pos h2, hn, hv, hl]
  · rw [if_neg (by omega), if_neg (by omega), if_neg (by omega), if_neg (by omega), if_pos h2,
      hn, hv, hl]

/-- A further byte of a sequence. -/
theorem utf8Step_more (out : Text) {need value least bits : ℕ} (hneed : 2 ≤ need)
    (hbits : bits < 0x40) :
    utf8Step ⟨out, need, value, least⟩ (UInt8.ofNat (0x80 + bits)) =
      some ⟨out, need - 1, value * 0x40 + bits, least⟩ := by
  have hb : (UInt8.ofNat (0x80 + bits)).toNat = 0x80 + bits := toNat_ofNat (by omega)
  simp only [utf8Step, hb]
  rw [if_neg (by omega), if_neg (by omega), if_neg (by omega), Nat.add_sub_cancel_left]

/-- The last byte of a sequence. -/
theorem utf8Step_last (out : Text) {value least bits c : ℕ} (hbits : bits < 0x40)
    (hc : value * 0x40 + bits = c) (hleast : least ≤ c) (hlt : c < 0x110000)
    (hsurrogate : isSurrogate c = false) :
    utf8Step ⟨out, 1, value, least⟩ (UInt8.ofNat (0x80 + bits)) =
      some ⟨out ++ [chr c], 0, 0, 0⟩ := by
  have hb : (UInt8.ofNat (0x80 + bits)).toNat = 0x80 + bits := toNat_ofNat (by omega)
  simp only [utf8Step, hb]
  rw [if_neg (by omega), if_neg (by omega), Nat.add_sub_cancel_left, hc, if_pos trivial,
    if_pos ⟨hleast, hlt, hsurrogate⟩]

/-- **A code point is read back.** -/
theorem foldlM_utf8Bytes (out : Text) {c : ℕ} (hlt : c < 0x110000)
    (hsurrogate : isSurrogate c = false) :
    (utf8Bytes c).foldlM utf8Step ⟨out, 0, 0, 0⟩ = some ⟨out ++ [chr c], 0, 0, 0⟩ := by
  unfold utf8Bytes
  split
  · rw [List.foldlM_cons, utf8Step_ascii out ‹_›]
    rfl
  · split
    · rw [List.foldlM_cons, utf8Step_lead out (.inl ⟨by omega, by omega, rfl, rfl, rfl⟩),
        Option.bind_eq_bind, Option.bind_some, List.foldlM_cons,
        utf8Step_last out (Nat.mod_lt _ (by omega)) (by omega) (by omega) hlt hsurrogate]
      rfl
    · split
      · rw [List.foldlM_cons, utf8Step_lead out (.inr (.inl ⟨by omega, by omega, rfl, rfl, rfl⟩)),
          Option.bind_eq_bind, Option.bind_some, List.foldlM_cons,
          utf8Step_more out le_rfl (Nat.mod_lt _ (by omega)), Option.bind_eq_bind,
          Option.bind_some, List.foldlM_cons,
          utf8Step_last out (Nat.mod_lt _ (by omega)) (by omega) (by omega) hlt hsurrogate]
        rfl
      · rw [List.foldlM_cons, utf8Step_lead out (.inr (.inr ⟨by omega, by omega, rfl, rfl, rfl⟩)),
          Option.bind_eq_bind, Option.bind_some, List.foldlM_cons,
          utf8Step_more out (by omega) (Nat.mod_lt _ (by omega)), Option.bind_eq_bind,
          Option.bind_some, List.foldlM_cons,
          utf8Step_more out le_rfl (Nat.mod_lt _ (by omega)), Option.bind_eq_bind,
          Option.bind_some, List.foldlM_cons,
          utf8Step_last out (Nat.mod_lt _ (by omega)) (by omega) (by omega) hlt hsurrogate]
        rfl

/-- **What is written is read back.** -/
theorem decodeUtf8_encodeUtf8 {t : Text} {bytes : List UInt8} (h : encodeUtf8 t = .ok bytes) :
    decodeUtf8 bytes = some t := by
  rw [encodeUtf8] at h
  split at h
  · rename_i hno
    cases h
    have hfold : ∀ (t out : Text), NoSurrogate t →
        (t.flatMap fun c => utf8Bytes c.val).foldlM utf8Step ⟨out, 0, 0, 0⟩ =
          some ⟨out ++ t, 0, 0, 0⟩ := by
      intro t
      induction t with
      | nil =>
        intro out _
        rw [List.append_nil]
        rfl
      | cons c t ih =>
        intro out hno
        obtain ⟨hc, hrest⟩ := List.forall_mem_cons.1 hno
        rw [List.flatMap_cons, List.foldlM_append, foldlM_utf8Bytes out c.isLt hc,
          Option.bind_eq_bind, Option.bind_some, ih _ hrest, List.append_assoc]
        have hchr : chr c.val = c := Fin.ext (val_chr c.isLt)
        rw [hchr]
        rfl
    rw [decodeUtf8, hfold t [] hno]
    rfl
  · cases h

/-! ## Only no bytes are the empty text -/

theorem utf8Step_progress {s s' : Utf8State} {byte : UInt8} (h : utf8Step s byte = some s') :
    s'.out ≠ [] ∨ s'.need ≠ 0 := by
  simp only [utf8Step] at h
  split_ifs at h <;> cases h
  · exact .inl (List.append_ne_nil_of_right_ne_nil _ (List.cons_ne_nil _ _))
  · exact .inr Nat.one_ne_zero
  · exact .inr (Nat.succ_ne_zero 1)
  · exact .inr (Nat.succ_ne_zero 2)
  · exact .inl (List.append_ne_nil_of_right_ne_nil _ (List.cons_ne_nil _ _))
  · refine .inr ?_
    dsimp only
    omega

theorem decodeUtf8_ne_nil {bytes : List UInt8} {t : Text} (hne : bytes ≠ [])
    (h : decodeUtf8 bytes = some t) : t ≠ [] := by
  rcases List.eq_nil_or_concat' bytes with rfl | ⟨init, last, rfl⟩
  · exact absurd rfl hne
  · rw [decodeUtf8, Option.bind_eq_some_iff] at h
    obtain ⟨s, hs, hout⟩ := h
    rw [List.foldlM_append, Option.bind_eq_bind, Option.bind_eq_some_iff] at hs
    obtain ⟨s₀, -, hlast⟩ := hs
    rw [List.foldlM_cons, Option.bind_eq_bind, Option.bind_eq_some_iff] at hlast
    obtain ⟨s₁, hstep, hend⟩ := hlast
    cases hend
    split at hout
    · rename_i hneed
      cases hout
      exact (utf8Step_progress hstep).resolve_right (not_not.2 hneed)
    · cases hout

end TalCash
