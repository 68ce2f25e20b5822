import TalCash.Common.BigEndian
import TalCash.Common.Positional
import TalCash.Core.Primitives
import TalCash.Core.Text
/-!
# Base58

`b58encode` reads the bytes as a number of base 256 and writes it in base
58; leading zeros, which a number forgets, are counted and written apart.
Both functions are the translation of one positional notation into another
(`b58encode_eq`, `b58decode_eq`), so they undo each other on all byte
strings and on all strings over the alphabet.
-/

namespace TalCash.Crypto

open BigEndian

/-- `ALPHABET`. -/
def ALPHABET : Text := text "123456789ABCDEFGHJKLMNPQRSTUVWXYZabcdefghijkmnopqrstuvwxyz"

/-- `ALPHABET[rem]`, of a remainder below 58. -/
def b58char (rem : ℕ) : CodePoint := ALPHABET.getD rem (ord '1')

/-- `_INDEX`. -/
def b58index (char : CodePoint) : Option ℕ :=
  if char ∈ ALPHABET then some (ALPHABET.idxOf char) else none

/-- `b58encode`; the loop of `divmod` gives the digits of the number. -/
def b58encode (data : Bytes) : Text :=
  let number := beNat data
  let digits := (Nat.digits 58 number).map b58char
  let leadingZeros := data.length - (data.dropWhile (· == 0)).length
  List.replicate leadingZeros (ord '1') ++ digits.reverse

/-- One character of the loop of `b58decode`. -/
def b58step [Unicode] (number : ℕ) (char : CodePoint) : Except PyError ℕ :=
  match b58index char with
  | none =>
    let shown := Unicode.repr [char]
    .error (.value s!"invalid base58 character {shown}")
  | some i => .ok (number * 58 + i)

/-- `b58decode`. -/
def b58decode [Unicode] (t : Text) : Except PyError Bytes := do
  let number ← t.foldlM b58step 0
  let leadingOnes := t.length - (t.dropWhile (· == ord '1')).length
  let body := if number ≠ 0 then beBytes ((Nat.size number + 7) / 8) number else []
  pure (List.replicate leadingOnes 0 ++ body)

/-! ## The alphabet -/

theorem length_ALPHABET : ALPHABET.length = 58 := by decide

theorem nodup_ALPHABET : ALPHABET.Nodup := by decide

theorem b58char_mem (rem : ℕ) : b58char rem ∈ ALPHABET := by
  rw [b58char, List.getD_eq_getElem?_getD]
  cases hget : ALPHABET[rem]? with
  | none => decide
  | some char => exact List.mem_of_getElem? hget

/-- Only symbols of the alphabet are written. -/
theorem mem_ALPHABET_of_mem_b58encode {data : Bytes} {char : CodePoint}
    (h : char ∈ b58encode data) : char ∈ ALPHABET := by
  rcases List.mem_append.1 h with h | h
  · rw [List.eq_of_mem_replicate h]
    decide
  · obtain ⟨rem, -, rfl⟩ := List.mem_map.1 (List.mem_reverse.1 h)
    exact b58char_mem rem

theorem b58index_b58char {i : ℕ} (h : i < 58) : b58index (b58char i) = some i := by
  rw [← length_ALPHABET] at h
  obtain ⟨hmem, hindex⟩ := Positional.idxOf_getD nodup_ALPHABET h (ord '1')
  rw [b58index, b58char, if_pos hmem, hindex]

/-- A character of the alphabet is that of its index. -/
theorem b58index_eq_some {char : CodePoint} {i : ℕ} (h : b58index char = some i) :
    i < 58 ∧ b58char i = char := by
  unfold b58index at h
  split at h
  · rename_i hmem
    obtain rfl := Option.some.inj h
    rw [← length_ALPHABET]
    exact Positional.getD_idxOf hmem (ord '1')
  · cases h

theorem b58char_eq_one {i : ℕ} (h : i < 58) : (b58char i == ord '1') = (i == 0) := by
  have hone : b58char 0 = ord '1' := by decide
  rw [Bool.eq_iff_iff, beq_iff_eq, beq_iff_eq, ← hone]
  refine ⟨fun he => ?_, fun he => by rw [he]⟩
  have hindex := congrArg b58index he
  rw [b58index_b58char h, b58index_b58char (by decide)] at hindex
  exact Option.some.inj hindex

/-! ## Leading characters -/

theorem length_sub_dropWhile {α : Type*} (p : α → Bool) (l : List α) :
    l.length - (l.dropWhile p).length = (l.takeWhile p).length := by
  have h := congrArg List.length (List.takeWhile_append_dropWhile (p := p) (l := l))
  rw [List.length_append] at h
  omega

theorem leading_map {α : Type*} {f : ℕ → α} {p : α → Bool} :
    ∀ {ds : List ℕ}, (∀ d ∈ ds, p (f d) = (d == 0)) →
      ((ds.map f).takeWhile p).length = Positional.leading ds
  | [], _ => rfl
  | d :: ds, h => by
    have hd := h d List.mem_cons_self
    have hds : ((ds.map f).takeWhile p).length = Positional.leading ds :=
      leading_map fun x hx => h x (List.mem_cons_of_mem _ hx)
    rw [Positional.leading] at hds ⊢
    rw [List.map_cons, List.takeWhile_cons, List.takeWhile_cons, hd]
    split
    · rw [List.length_cons, List.length_cons, hds]
    · rfl

/-! ## Bytes as digits of base 256 -/

/-- The digits of a byte string. -/
def byteDigits (data : Bytes) : List ℕ := data.map UInt8.toNat

/-- The byte string of some digits. -/
def ofByteDigits (ds : List ℕ) : Bytes := ds.map UInt8.ofNat

theorem byteDigits_lt {data : Bytes} : ∀ d ∈ byteDigits data, d < 256 := by
  intro d hd
  obtain ⟨x, -, rfl⟩ := List.mem_map.1 hd
  exact x.toNat_lt

@[simp] theorem ofByteDigits_byteDigits (data : Bytes) : ofByteDigits (byteDigits data) = data := by
  rw [ofByteDigits, byteDigits, List.map_map]
  exact List.map_id'' (fun x => UInt8.ofNat_toNat) data

theorem byteDigits_ofByteDigits {ds : List ℕ} (h : ∀ d ∈ ds, d < 256) :
    byteDigits (ofByteDigits ds) = ds := by
  rw [ofByteDigits, byteDigits, List.map_map]
  refine (List.map_congr_left fun d hd => ?_).trans (List.map_id ds)
  have hlt := h d hd
  show (UInt8.ofNat d).toNat = d
  rw [UInt8.toNat_ofNat']
  omega

theorem beNat_eq_value (data : Bytes) : beNat data = Positional.value 256 (byteDigits data) := by
  rw [beNat, Positional.value, byteDigits, List.foldl_map]

theorem beBytes_eq_fixed (k n : ℕ) : beBytes k n = ofByteDigits (Positional.fixed 256 k n) := by
  induction k generalizing n with
  | zero => rfl
  | succ k ih =>
    rw [beBytes, ih, Positional.fixed_succ, ofByteDigits, ofByteDigits, List.map_append,
      List.map_singleton]

/-- The number of bytes of an integer, from its number of bits. -/
theorem length_digits_256 (n : ℕ) : (Positional.digits 256 n).length = (Nat.size n + 7) / 8 := by
  have hle : ∀ k, (Positional.digits 256 n).length ≤ k ↔ Nat.size n ≤ 8 * k := by
    intro k
    rw [Positional.digits, List.length_reverse, Nat.digits_length_le_iff (by decide), Nat.size_le,
      show 256 = 2 ^ 8 by norm_num, ← pow_mul]
  have hup := (hle ((Nat.size n + 7) / 8)).2 (by omega)
  have hdown := (hle (Positional.digits 256 n).length).1 le_rfl
  omega

/-- The fewest bytes of an integer. -/
theorem shortest_eq_digits (n : ℕ) :
    (if n ≠ 0 then beBytes ((Nat.size n + 7) / 8) n else []) =
      ofByteDigits (Positional.digits 256 n) := by
  split
  · have hlt : ∀ d ∈ Positional.digits 256 n, d < 256 :=
      fun d hd => Positional.digits_lt (by decide) hd
    have hfixed := Positional.fixed_value hlt
    rw [Positional.value_digits] at hfixed
    rw [beBytes_eq_fixed, ← length_digits_256, hfixed]
  · rename_i hn
    obtain rfl : n = 0 := by omega
    rw [Positional.digits_zero]
    rfl

/-! ## Translations between two bases -/

/-- The text of some digits of base 58. -/
def ofDigits58 (ds : List ℕ) : Text := ds.map b58char

/-- **Encoding is a change of base.** -/
theorem b58encode_eq (data : Bytes) :
    b58encode data = ofDigits58 (Positional.padded 58 (Positional.leading (byteDigits data))
      (Positional.value 256 (byteDigits data))) := by
  have hzero : ∀ d ∈ byteDigits data, (UInt8.ofNat d == 0) = (d == 0) := by
    intro d hd
    obtain ⟨x, -, rfl⟩ := List.mem_map.1 hd
    rw [UInt8.ofNat_toNat, Bool.eq_iff_iff, beq_iff_eq, beq_iff_eq]
    exact UInt8.toNat_inj.symm
  have hzeros : (data.takeWhile (· == 0)).length = Positional.leading (byteDigits data) := by
    have h : ((ofByteDigits (byteDigits data)).takeWhile (· == 0)).length =
        Positional.leading (byteDigits data) := leading_map hzero
    rwa [ofByteDigits_byteDigits] at h
  have hone : b58char 0 = ord '1' := by decide
  rw [b58encode, length_sub_dropWhile, hzeros, beNat_eq_value, ofDigits58, Positional.padded,
    List.map_append, List.map_replicate, hone, Positional.digits, List.map_reverse]

section

variable [Unicode]

/-- The loop of `b58decode` on characters of the alphabet. -/
theorem foldlM_b58step {ds : List ℕ} (h : ∀ d ∈ ds, d < 58) :
    ∀ n, (ofDigits58 ds).foldlM b58step n = .ok (ds.foldl (fun n d => n * 58 + d) n) := by
  induction ds with
  | nil => intro n; rfl
  | cons d ds ih =>
    intro n
    have hstep : b58step n (b58char d) = .ok (n * 58 + d) := by
      rw [b58step, b58index_b58char (h d List.mem_cons_self)]
    rw [ofDigits58, List.map_cons, List.foldlM_cons, hstep]
    exact ih (fun x hx => h x (List.mem_cons_of_mem _ hx)) (n * 58 + d)

/-- **Decoding is a change of base**, on the digits of any text over the
alphabet. -/
theorem b58decode_eq {ds : List ℕ} (h : ∀ d ∈ ds, d < 58) :
    b58decode (ofDigits58 ds) =
      .ok (ofByteDigits
        (Positional.padded 256 (Positional.leading ds) (Positional.value 58 ds))) := by
  have hones : ((ofDigits58 ds).takeWhile (· == ord '1')).length = Positional.leading ds :=
    leading_map fun d hd => b58char_eq_one (h d hd)
  have hzero : List.replicate (Positional.leading ds) (0 : UInt8) =
      ofByteDigits (List.replicate (Positional.leading ds) 0) := by
    rw [ofByteDigits, List.map_replicate]
    rfl
  rw [b58decode, foldlM_b58step h, length_sub_dropWhile, hones]
  refine congrArg Except.ok ?_
  rw [shortest_eq_digits, hzero, Positional.padded, ofByteDigits, ofByteDigits, ofByteDigits,
    List.map_append]
  rfl

/-- Decoding raises nothing but `ValueError`, and only outside the
alphabet. -/
theorem b58decode_cases (t : Text) :
    (∃ ds, (∀ d ∈ ds, d < 58) ∧ t = ofDigits58 ds) ∨
      (∃ char ∈ t, char ∉ ALPHABET) ∧ ∃ detail, b58decode t = .error (.value detail) := by
  by_cases hall : ∀ char ∈ t, char ∈ ALPHABET
  · refine Or.inl ⟨t.map fun char => ALPHABET.idxOf char, fun d hd => ?_, ?_⟩
    · obtain ⟨char, hchar, rfl⟩ := List.mem_map.1 hd
      exact (b58index_eq_some (if_pos (hall char hchar))).1
    · rw [ofDigits58, List.map_map]
      refine ((List.map_congr_left fun char hchar => ?_).trans (List.map_id t)).symm
      exact (b58index_eq_some (if_pos (hall char hchar))).2
  · push Not at hall
    have hraise : ∀ {t : Text} (n : ℕ), (∃ char ∈ t, char ∉ ALPHABET) →
        ∃ detail, t.foldlM b58step n = .error (PyError.value detail) := by
      intro t
      induction t with
      | nil => rintro n ⟨char, hchar, -⟩; cases hchar
      | cons c t ih =>
        rintro n ⟨char, hchar, hout⟩
        rw [List.foldlM_cons]
        cases hc : b58index c with
        | none => exact ⟨_, by rw [b58step, hc]; rfl⟩
        | some i =>
          have hin : c ∈ ALPHABET := by
            by_contra hno
            rw [b58index, if_neg hno] at hc
            cases hc
          rcases List.mem_cons.1 hchar with rfl | hchar
          · exact absurd hin hout
          obtain ⟨detail, hd⟩ := ih (n * 58 + i) ⟨char, hchar, hout⟩
          refine ⟨detail, ?_⟩
          rw [b58step, hc]
          exact hd
    obtain ⟨detail, hd⟩ := hraise 0 hall
    exact Or.inr ⟨hall, detail, by rw [b58decode, hd]; rfl⟩

/-- **Every byte string is decoded from its text.** -/
theorem b58decode_b58encode (data : Bytes) : b58decode (b58encode data) = .ok data := by
  rw [b58encode_eq, b58decode_eq fun d hd => Positional.padded_lt (by decide) hd,
    Positional.leading_padded, Positional.value_padded,
    Positional.padded_leading_value (by decide) byteDigits_lt, ofByteDigits_byteDigits]

/-- **Every text is encoded from what it decodes to.** -/
theorem b58encode_b58decode {t : Text} {data : Bytes} (h : b58decode t = .ok data) :
    b58encode data = t := by
  rcases b58decode_cases t with ⟨ds, hds, rfl⟩ | ⟨-, detail, hd⟩
  · rw [b58decode_eq hds] at h
    obtain rfl := Except.ok.inj h
    rw [b58encode_eq, byteDigits_ofByteDigits fun d hd => Positional.padded_lt (by decide) hd,
      Positional.leading_padded, Positional.value_padded,
      Positional.padded_leading_value (by decide) hds]
  · rw [hd] at h
    cases h

/-- Every text over the alphabet is decoded. -/
theorem b58decode_isOk {t : Text} (h : ∀ char ∈ t, char ∈ ALPHABET) :
    ∃ data, b58decode t = .ok data := by
  rcases b58decode_cases t with ⟨ds, hds, rfl⟩ | ⟨⟨char, hchar, hout⟩, -⟩
  · exact ⟨_, b58decode_eq hds⟩
  · exact absurd (h char hchar) hout

end

end TalCash.Crypto
