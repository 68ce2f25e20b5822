import TalCash.Core.Sample
import TalCash.Crypto.Base58
/-!
# Addresses

The text of an address is a network's prefix and the base58 text of the
payload with its checksum. `decodeAddress` accepts exactly the texts that
`encodeAddress` writes (`decodeAddress_eq_ok_iff`), so an address has one
text form; its length cap refuses none of them (`length_b58encode_le`).
-/

namespace TalCash.Crypto

def ADDRESS_VERSION : UInt8 := 0
def PAYLOAD_SIZE : ℕ := 21
def CHECKSUM_SIZE : ℕ := 4
def MAX_BASE58_LENGTH : ℕ := 40

/-- `is_known_payload`. -/
def isKnownPayload (payload : Bytes) : Bool :=
  payload.length == PAYLOAD_SIZE && payload.head? == some ADDRESS_VERSION

/-- A payload inside a transaction is known where its bytes are. -/
theorem isKnownPayload_toList (payload : Address) :
    isKnownPayload payload.toList = TalCash.isKnownPayload payload := by
  rw [isKnownPayload, payload.toList_length]
  exact Bool.true_and _

/-- The text is ASCII. -/
def IsAscii (t : Text) : Prop := ∀ c ∈ t, c.val < 128

instance (t : Text) : Decidable (IsAscii t) :=
  List.decidableBAll (fun c : CodePoint => c.val < 128) t

/-- `text.encode("ascii")`; `UnicodeEncodeError` is a `ValueError`. -/
def encodeAscii (t : Text) : Except PyError Bytes :=
  if IsAscii t then .ok (t.map fun c => UInt8.ofNat c.val)
  else .error (.value "'ascii' codec can't encode: ordinal not in range(128)")

section

variable [Library]

/-- `_checksum`. -/
def checksum (pre : Text) (payload : Bytes) : Except PyError Bytes := do
  let ascii ← encodeAscii pre
  pure ((sha256 (sha256 (ascii ++ payload)).toList).toList.take CHECKSUM_SIZE)

/-- `encode_address`. -/
def encodeAddress (payload : Bytes) (pre : Text) : Except PyError Text :=
  if !isKnownPayload payload then .error (.value "unknown address payload")
  else do
    let check ← checksum pre payload
    pure (pre ++ b58encode (payload ++ check))

/-- `decode_address`. -/
def decodeAddress [Unicode] (t pre : Text) : Except PyError Bytes :=
  let shown := Unicode.repr pre
  if !pre.isPrefixOf t then .error (.value s!"address must start with {shown}")
  else if pre.length + MAX_BASE58_LENGTH < t.length then .error (.value "address is too long")
  else do
    let raw ← b58decode (t.drop pre.length)
    if raw.length ≠ PAYLOAD_SIZE + CHECKSUM_SIZE then
      .error (.value "address has the wrong length")
    else do
      let payload := raw.take PAYLOAD_SIZE
      let check := raw.drop PAYLOAD_SIZE
      let expected ← checksum pre payload
      if check ≠ expected then
        .error (.value "address checksum mismatch (typo, or an address from another network)")
      else if !isKnownPayload payload then .error (.value "unknown address version")
      else pure payload

end

/-! ## The length cap -/

/-- 25 bytes have at most 40 characters, however many of them are zeros. -/
theorem length_b58encode_le {data : Bytes} (h : data.length = PAYLOAD_SIZE + CHECKSUM_SIZE) :
    (b58encode data).length ≤ MAX_BASE58_LENGTH := by
  obtain ⟨zeros, hzeros⟩ : ∃ z, z = Positional.leading (byteDigits data) := ⟨_, rfl⟩
  have hsplit := Positional.replicate_leading_append (byteDigits data)
  rw [← hzeros] at hsplit
  set tail := (byteDigits data).dropWhile (· == 0) with htail
  have hlen : zeros + tail.length = 25 := by
    have hlength := congrArg List.length hsplit
    rw [List.length_append, List.length_replicate, byteDigits, List.length_map, h] at hlength
    exact hlength
  have hvalue : Positional.value 256 (byteDigits data) < 256 ^ tail.length := by
    rw [← hsplit, Positional.value_replicate_zero_append]
    refine Positional.value_lt fun d hd => ?_
    have hmem : d ∈ byteDigits data := (List.dropWhile_sublist _).subset hd
    exact byteDigits_lt d hmem
  -- each byte after the zeros needs fewer characters than the zeros leave
  have hroom : ∀ k ≤ 25, 256 ^ k ≤ 58 ^ (k + 15) := by decide
  have hdigits := Positional.length_digits_le (b := 58) (by decide)
    (hvalue.trans_le (hroom tail.length (by omega)))
  rw [b58encode_eq, ofDigits58, List.length_map, Positional.padded, List.length_append,
    List.length_replicate, ← hzeros]
  simp only [MAX_BASE58_LENGTH]
  omega

/-! ## One text form -/

theorem length_take_checksum (d : Digest) :
    (d.toList.take CHECKSUM_SIZE).length = CHECKSUM_SIZE := by
  rw [List.length_take, List.Vector.toList_length]
  rfl

section

variable [Library]

/-- With an ASCII prefix every payload has a checksum of four bytes. -/
theorem checksum_isOk {pre : Text} (hpre : IsAscii pre) (payload : Bytes) :
    ∃ check, checksum pre payload = .ok check ∧ check.length = CHECKSUM_SIZE :=
  ⟨_, by rw [checksum, encodeAscii, if_pos hpre]; rfl, length_take_checksum _⟩

variable [Unicode]

/-- What the reader does with a text, case by case. -/
theorem decodeAddress_cases {pre : Text} (hpre : IsAscii pre) (t : Text) :
    (∃ payload check, isKnownPayload payload = true ∧ checksum pre payload = .ok check ∧
        t = pre ++ b58encode (payload ++ check) ∧ decodeAddress t pre = .ok payload) ∨
      ∃ detail, decodeAddress t pre = .error (.value detail) := by
  unfold decodeAddress
  dsimp only
  split
  · exact Or.inr ⟨_, rfl⟩
  rename_i hstart
  split
  · exact Or.inr ⟨_, rfl⟩
  obtain ⟨rest, rfl⟩ : pre <+: t := by simpa using hstart
  rw [List.drop_left]
  cases hraw : b58decode rest with
  | error e =>
    rcases b58decode_cases rest with ⟨ds, hds, rfl⟩ | ⟨-, detail, hd⟩
    · rw [b58decode_eq hds] at hraw
      cases hraw
    · rw [hraw, Except.error.injEq] at hd
      exact Or.inr ⟨detail, by rw [← hd]; rfl⟩
  | ok raw =>
    obtain ⟨check, hcheck, -⟩ := checksum_isOk hpre (raw.take PAYLOAD_SIZE)
    simp only [ok_bind, hcheck]
    split
    · exact Or.inr ⟨_, rfl⟩
    split
    · exact Or.inr ⟨_, rfl⟩
    rename_i hsame
    split
    · exact Or.inr ⟨_, rfl⟩
    rename_i hknown
    have hraw' : raw.take PAYLOAD_SIZE ++ check = raw := by
      rw [← not_not.1 hsame, List.take_append_drop]
    refine Or.inl ⟨_, check, by simpa using hknown, hcheck, ?_, rfl⟩
    rw [hraw', b58encode_b58decode hraw]

/-- The reader accepts what the writer gives. -/
theorem decodeAddress_of_known {pre : Text} {payload check : Bytes}
    (hknown : isKnownPayload payload = true) (hcheck : checksum pre payload = .ok check)
    (hlen : check.length = CHECKSUM_SIZE) :
    decodeAddress (pre ++ b58encode (payload ++ check)) pre = .ok payload := by
  have hsize : payload.length = PAYLOAD_SIZE := by
    simpa using (Bool.and_eq_true_iff.1 hknown).1
  have htake : (payload ++ check).take PAYLOAD_SIZE = payload := by rw [← hsize, List.take_left]
  have hdrop : (payload ++ check).drop PAYLOAD_SIZE = check := by rw [← hsize, List.drop_left]
  have htotal : (payload ++ check).length = PAYLOAD_SIZE + CHECKSUM_SIZE := by
    rw [List.length_append, hsize, hlen]
  have hcap : ¬ pre.length + MAX_BASE58_LENGTH < (pre ++ b58encode (payload ++ check)).length := by
    have := length_b58encode_le htotal
    rw [List.length_append]
    omega
  have hstart : (!pre.isPrefixOf (pre ++ b58encode (payload ++ check))) = false := by simp
  simp only [decodeAddress, hstart, Bool.false_eq_true, if_false, if_neg hcap, List.drop_left,
    b58decode_b58encode, ok_bind, htotal, ne_eq, not_true_eq_false, htake, hdrop, hcheck, hknown,
    Bool.not_true]
  rfl

omit [Unicode] in
theorem encodeAddress_eq_ok_iff {pre t : Text} {payload : Bytes}
    (hknown : isKnownPayload payload = true) :
    encodeAddress payload pre = .ok t ↔
      ∃ check, checksum pre payload = .ok check ∧ t = pre ++ b58encode (payload ++ check) := by
  rw [encodeAddress, hknown, Bool.not_true, if_neg Bool.false_ne_true, bind_eq_ok]
  constructor
  · rintro ⟨check, hcheck, ht⟩
    exact ⟨check, hcheck, (Except.ok.inj ht).symm⟩
  · rintro ⟨check, hcheck, rfl⟩
    exact ⟨check, hcheck, rfl⟩

/-- **An address has exactly one text form.** For an ASCII prefix the
reader returns a payload exactly where the payload is known and the text
is what the writer gives for it, and raises `ValueError` for every other
text. -/
theorem decodeAddress_eq_ok_iff {pre : Text} (hpre : IsAscii pre) (t : Text) :
    (∀ payload, decodeAddress t pre = .ok payload ↔
      isKnownPayload payload = true ∧ encodeAddress payload pre = .ok t) ∧
    ((¬ ∃ payload, isKnownPayload payload = true ∧ encodeAddress payload pre = .ok t) →
      ∃ detail, decodeAddress t pre = .error (.value detail)) ∧
    (∀ data, b58decode (b58encode data) = .ok data) ∧
    (∀ t' : Text, (∀ char ∈ t', char ∈ ALPHABET) →
      ∃ data, b58decode t' = .ok data ∧ b58encode data = t') ∧
    ∀ payload, isKnownPayload payload = true →
      ∃ address, encodeAddress payload pre = .ok address ∧
        address.length ≤ pre.length + MAX_BASE58_LENGTH := by
  have hread : ∀ payload, decodeAddress t pre = .ok payload ↔
      isKnownPayload payload = true ∧ encodeAddress payload pre = .ok t := by
    intro payload
    constructor
    · intro h
      rcases decodeAddress_cases hpre t with ⟨payload', check, hknown, hcheck, ht, hd⟩ | ⟨_, hd⟩
      · rw [h, Except.ok.injEq] at hd
        subst hd
        exact ⟨hknown, (encodeAddress_eq_ok_iff hknown).2 ⟨check, hcheck, ht⟩⟩
      · rw [h] at hd
        cases hd
    · rintro ⟨hknown, ht⟩
      obtain ⟨check, hcheck, rfl⟩ := (encodeAddress_eq_ok_iff hknown).1 ht
      obtain ⟨check', hcheck', hlen⟩ := checksum_isOk hpre payload
      rw [hcheck, Except.ok.injEq] at hcheck'
      subst hcheck'
      exact decodeAddress_of_known hknown hcheck hlen
  refine ⟨hread, fun hno => ?_, b58decode_b58encode, fun t' ht' => ?_, fun payload hknown => ?_⟩
  · rcases decodeAddress_cases hpre t with ⟨payload, _, _, _, _, hd⟩ | hraise
    · exact absurd ⟨payload, (hread payload).1 hd⟩ hno
    · exact hraise
  · obtain ⟨data, hdata⟩ := b58decode_isOk ht'
    exact ⟨data, hdata, b58encode_b58decode hdata⟩
  · obtain ⟨check, hcheck, hlen⟩ := checksum_isOk hpre payload
    refine ⟨_, (encodeAddress_eq_ok_iff hknown).2 ⟨check, hcheck, rfl⟩, ?_⟩
    have hsize : payload.length = PAYLOAD_SIZE := by
      simpa using (Bool.and_eq_true_iff.1 hknown).1
    rw [List.length_append]
    exact Nat.add_le_add_left (length_b58encode_le (by rw [List.length_append, hsize, hlen])) _

end

attribute [local instance] Sample.primitives Sample.unicode

/-- The burn address of a network, written and read. -/
theorem decodeAddress_eq_ok_iff_burn :
    ∃ address, encodeAddress (List.replicate 21 0) (text "tc") = .ok address ∧
      decodeAddress address (text "tc") = .ok (List.replicate 21 0) := by
  have hknown : isKnownPayload (List.replicate 21 0) = true := by decide
  have hascii : IsAscii (text "tc") := by decide
  obtain ⟨address, haddress, -⟩ :=
    (decodeAddress_eq_ok_iff hascii []).2.2.2.2 (List.replicate 21 0) hknown
  exact ⟨address, haddress, ((decodeAddress_eq_ok_iff hascii address).1 _).2 ⟨hknown, haddress⟩⟩

end TalCash.Crypto
