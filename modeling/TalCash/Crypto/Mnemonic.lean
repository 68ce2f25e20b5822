import TalCash.Core.Sample
import TalCash.Crypto.Base58
/-!
# Passphrases

A passphrase writes entropy and a checksum of it in words of 11 bits.
There are five sizes, all of them `4 * k` bytes, `k` bits of checksum and
`3 * k` words; at each of them the words are the digits of base 2048 of
one number (`entropyToMnemonic_eq`, `mnemonicToEntropy_eq`), so the two
functions undo each other.
-/

namespace TalCash.Crypto

open BigEndian

/-- `_VALID_ENTROPY_BYTES`. -/
def VALID_ENTROPY_BYTES : List ℕ := [16, 20, 24, 28, 32]

/-- `n.to_bytes(k, "big")`. -/
def toBytes (k n : ℕ) : Except PyError Bytes :=
  if n < 256 ^ k then .ok (beBytes k n) else .error .overflow

section

variable [Unicode]

/-- `normalize`. -/
def normalize (mnemonic : Text) : Text := unwords (words (lower (nfkd mnemonic)))

/-- A word list: 2048 distinct words that normalization leaves unchanged. -/
structure Wordlist where
  words : List Text
  length_eq : words.length = 2048
  nodup : words.Nodup
  isWord : ∀ w ∈ words, IsWord w
  normalize_eq : ∀ w ∈ words, normalize w = w

/-- The word of an index below 2048. -/
def Wordlist.word (W : Wordlist) (i : ℕ) : Text := W.words.getD i []

/-- `_word_index()[word]`, shifted into the bits read so far. -/
def pushWord (W : Wordlist) (bits : ℕ) (word : Text) : Except PyError ℕ :=
  if word ∈ W.words then .ok ((bits <<< 11) ||| W.words.idxOf word)
  else
    let shown := Unicode.repr word
    .error (.value s!"{shown} is not in the word list")

variable [Library]

/-- The checksum of entropy, in some bits. -/
def checksumOf (entropy : Bytes) (checksumBits : ℕ) : ℕ :=
  (sha256 entropy).head.toNat >>> (8 - checksumBits)

/-- `entropy_to_mnemonic`. -/
def entropyToMnemonic (W : Wordlist) (entropy : Bytes) : Except PyError Text :=
  if entropy.length ∉ VALID_ENTROPY_BYTES then
    .error (.value "entropy must be 16, 20, 24, 28 or 32 bytes")
  else
    let checksumBits := entropy.length * 8 / 32
    let bits := beNat entropy <<< checksumBits
    let bits := bits ||| checksumOf entropy checksumBits
    let wordCount := (entropy.length * 8 + checksumBits) / 11
    .ok (unwords ((List.range wordCount).map fun i =>
      W.word ((bits >>> (11 * (wordCount - 1 - i))) &&& 0x7FF)))

/-- `mnemonic_to_entropy`. -/
def mnemonicToEntropy (W : Wordlist) (mnemonic : Text) : Except PyError Bytes :=
  let phrase := (normalize mnemonic).splitOn SPACE
  if phrase.length ∉ [12, 15, 18, 21, 24] then
    .error (.value "a passphrase has 12, 15, 18, 21 or 24 words")
  else do
    let bits ← phrase.foldlM (pushWord W) 0
    let checksumBits := phrase.length * 11 / 33
    let entropyBytes := (phrase.length * 11 - checksumBits) / 8
    let entropy ← toBytes entropyBytes (bits >>> checksumBits)
    if bits &&& ((1 <<< checksumBits) - 1) ≠ checksumOf entropy checksumBits then
      .error (.value "passphrase checksum mismatch (a word is wrong or out of order)")
    else .ok entropy

/-! ## Words and digits of base 2048 -/

/-- The words of some digits. -/
def Wordlist.phrase (W : Wordlist) (ds : List ℕ) : List Text := ds.map W.word

variable {W : Wordlist}

omit [Library] in
theorem Wordlist.word_spec (W : Wordlist) {i : ℕ} (h : i < 2048) :
    W.word i ∈ W.words ∧ W.words.idxOf (W.word i) = i := by
  rw [← W.length_eq] at h
  exact Positional.idxOf_getD W.nodup h []

omit [Library] in
theorem Wordlist.phrase_mem (W : Wordlist) {ds : List ℕ} (h : ∀ d ∈ ds, d < 2048) :
    ∀ w ∈ W.phrase ds, w ∈ W.words := by
  intro w hw
  obtain ⟨d, hd, rfl⟩ := List.mem_map.1 hw
  exact (W.word_spec (h d hd)).1

omit [Library] in
/-- Words of the list are the words of their indices. -/
theorem Wordlist.exists_phrase (W : Wordlist) {ws : List Text} (h : ∀ w ∈ ws, w ∈ W.words) :
    ∃ ds, (∀ d ∈ ds, d < 2048) ∧ ws = W.phrase ds := by
  refine ⟨ws.map fun w => W.words.idxOf w, fun d hd => ?_, ?_⟩
  · obtain ⟨w, hw, rfl⟩ := List.mem_map.1 hd
    rw [← W.length_eq]
    exact (Positional.getD_idxOf (h w hw) []).1
  · rw [Wordlist.phrase, List.map_map]
    refine ((List.map_congr_left fun w hw => ?_).trans (List.map_id ws)).symm
    exact (Positional.getD_idxOf (h w hw) []).2

omit [Library] in
/-- The loop over the words reads a number of base 2048. -/
theorem foldlM_pushWord {ds : List ℕ} (h : ∀ d ∈ ds, d < 2048) :
    ∀ n, (W.phrase ds).foldlM (pushWord W) n =
      .ok (ds.foldl (fun n d => n * 2048 + d) n) := by
  induction ds with
  | nil => intro n; rfl
  | cons d ds ih =>
    intro n
    have hd := h d List.mem_cons_self
    obtain ⟨hmem, hindex⟩ := W.word_spec hd
    have hstep : pushWord W n (W.word d) = .ok (n * 2048 + d) := by
      rw [pushWord, if_pos hmem, hindex, ← Nat.shiftLeft_add_eq_or_of_lt (by omega),
        Nat.shiftLeft_eq]
    rw [Wordlist.phrase, List.map_cons, List.foldlM_cons, hstep]
    exact ih (fun x hx => h x (List.mem_cons_of_mem _ hx)) (n * 2048 + d)

omit [Library] in
/-- The loop returns only on words of the list. -/
theorem mem_of_foldlM_pushWord {ws : List Text} :
    ∀ {n bits : ℕ}, ws.foldlM (pushWord W) n = .ok bits → ∀ w ∈ ws, w ∈ W.words := by
  induction ws with
  | nil => intro n bits _ w hw; cases hw
  | cons x ws ih =>
    intro n bits h w hw
    rw [List.foldlM_cons] at h
    obtain ⟨n', hstep, hrest⟩ := bind_eq_ok.1 h
    rcases List.mem_cons.1 hw with rfl | hw
    · by_contra hno
      rw [pushWord, if_neg hno] at hstep
      cases hstep
    · exact ih hrest w hw

/-! ## The five sizes -/

omit [Unicode] in
/-- A checksum of `k` bits fits them. -/
theorem checksumOf_lt (entropy : Bytes) {k : ℕ} (hk : k ≤ 8) : checksumOf entropy k < 2 ^ k := by
  have hbyte : (sha256 entropy).head.toNat < 2 ^ 8 := (sha256 entropy).head.toNat_lt
  rw [checksumOf, Nat.shiftRight_eq_div_pow]
  refine Nat.div_lt_of_lt_mul ?_
  rwa [← pow_add, Nat.sub_add_cancel hk]

omit [Library] [Unicode] in
theorem two_pow_eq_pow (k : ℕ) : 2048 ^ (3 * k) = 256 ^ (4 * k) * 2 ^ k := by
  rw [show 2048 = 2 ^ 11 by norm_num, show 256 = 2 ^ 8 by norm_num, ← pow_mul, ← pow_mul, ← pow_add]
  congr 1
  ring

omit [Library] [Unicode] in
/-- What the words say apart from the checksum fits the entropy. -/
theorem value_div_lt {k : ℕ} {ds : List ℕ} (hds : ∀ d ∈ ds, d < 2048) (hlen : ds.length = 3 * k) :
    Positional.value 2048 ds / 2 ^ k < 256 ^ (4 * k) := by
  have hlt := Positional.value_lt hds
  rw [hlen, two_pow_eq_pow, mul_comm] at hlt
  exact Nat.div_lt_of_lt_mul hlt

/-- **The phrase of `4 * k` bytes**: the `3 * k` digits of the entropy
followed by its checksum. -/
theorem entropyToMnemonic_eq {k : ℕ} (h4 : 4 ≤ k) (h8 : k ≤ 8) {entropy : Bytes}
    (hlen : entropy.length = 4 * k) :
    entropyToMnemonic W entropy =
      .ok (unwords (W.phrase (Positional.fixed 2048 (3 * k)
        (beNat entropy * 2 ^ k + checksumOf entropy k)))) := by
  have hvalid : ¬ entropy.length ∉ VALID_ENTROPY_BYTES := by
    rw [hlen, not_not]
    interval_cases k <;> decide
  have hbits : entropy.length * 8 / 32 = k := by omega
  have hcount : (entropy.length * 8 + k) / 11 = 3 * k := by omega
  have hor : beNat entropy <<< k ||| checksumOf entropy k =
      beNat entropy * 2 ^ k + checksumOf entropy k := by
    rw [← Nat.shiftLeft_add_eq_or_of_lt (checksumOf_lt entropy h8), Nat.shiftLeft_eq]
  simp only [entropyToMnemonic, if_neg hvalid, hbits, hcount, hor]
  rw [Wordlist.phrase, Positional.fixed, List.map_map]
  refine congrArg (fun ws => Except.ok (unwords ws)) (List.map_congr_left fun i _ => ?_)
  -- a group of 11 bits is a digit of base 2048
  have hdigit : ∀ n j : ℕ, n >>> (11 * j) &&& 0x7FF = n / 2048 ^ j % 2048 := by
    intro n j
    rw [show 0x7FF = 2 ^ 11 - 1 by norm_num, Nat.and_two_pow_sub_one_eq_mod,
      Nat.shiftRight_eq_div_pow, pow_mul]
    norm_num
  rw [hdigit]
  rfl

/-- **What a phrase of `3 * k` words gives.** -/
theorem mnemonicToEntropy_eq {k : ℕ} (h4 : 4 ≤ k) (h8 : k ≤ 8) {mnemonic : Text} {ds : List ℕ}
    (hds : ∀ d ∈ ds, d < 2048) (hlen : ds.length = 3 * k)
    (hphrase : (normalize mnemonic).splitOn SPACE = W.phrase ds) :
    mnemonicToEntropy W mnemonic =
      if Positional.value 2048 ds % 2 ^ k =
          checksumOf (beBytes (4 * k) (Positional.value 2048 ds / 2 ^ k)) k then
        .ok (beBytes (4 * k) (Positional.value 2048 ds / 2 ^ k))
      else .error (.value "passphrase checksum mismatch (a word is wrong or out of order)") := by
  have hlength : (W.phrase ds).length = 3 * k := by rw [Wordlist.phrase, List.length_map, hlen]
  have hvalid : ¬ 3 * k ∉ [12, 15, 18, 21, 24] := by
    rw [not_not]
    interval_cases k <;> decide
  have hbits : 3 * k * 11 / 33 = k := by omega
  have hbytes : (3 * k * 11 - k) / 8 = 4 * k := by omega
  have hvalue := value_div_lt hds hlen
  have hread := foldlM_pushWord (W := W) hds 0
  have hmask : ∀ n : ℕ, n &&& (1 <<< k - 1) = n % 2 ^ k := by
    intro n
    rw [Nat.shiftLeft_eq, one_mul, Nat.and_two_pow_sub_one_eq_mod]
  have hshift : Positional.value 2048 ds >>> k = Positional.value 2048 ds / 2 ^ k :=
    Nat.shiftRight_eq_div_pow _ _
  rw [← Positional.value] at hread
  simp only [mnemonicToEntropy, hphrase, hlength, if_neg hvalid, hread, ok_bind, hbits, hbytes,
    hshift, toBytes, if_pos hvalue, hmask, ne_eq, ite_not]

/-! ## Normal phrases -/

/-- Normal forms and lower case are computed between spaces: a space
decomposes to itself, no mark moves across it, and it is neither a cased
letter nor skipped where the case of a letter depends on its word. -/
structure SpacesApart : Prop where
  nfkd : ∀ t t' : Text, nfkd (t ++ SPACE :: t') = nfkd t ++ SPACE :: nfkd t'
  lower : ∀ t t' : Text, lower (t ++ SPACE :: t') = lower t ++ SPACE :: lower t'

omit [Library] in
theorem words_lower_nfkd_unwords (hapart : SpacesApart) :
    ∀ {ws : List Text}, ws ≠ [] →
      words (lower (nfkd (unwords ws))) = ws.flatMap fun w => words (lower (nfkd w))
  | [], h => absurd rfl h
  | [w], _ => by simp [unwords]
  | w :: w' :: ws, _ => by
    have hrest := words_lower_nfkd_unwords hapart (List.cons_ne_nil w' ws)
    rw [unwords, List.intercalate_cons_cons, List.append_assoc, List.singleton_append, hapart.nfkd,
      hapart.lower, words_append_space, List.flatMap_cons]
    rw [unwords] at hrest
    rw [hrest]

omit [Library] in
/-- A word of the list is the one word of its normal form. -/
theorem words_of_mem_wordlist {w : Text} (h : w ∈ W.words) : words (lower (nfkd w)) = [w] := by
  have hnormal := congrArg words (W.normalize_eq w h)
  rwa [normalize, words_unwords fun x hx => isWord_of_mem_words hx,
    words_of_isWord (W.isWord w h)] at hnormal

omit [Library] in
/-- **A phrase of listed words is normal.** -/
theorem normalize_unwords (hapart : SpacesApart) {ws : List Text} (hne : ws ≠ [])
    (h : ∀ w ∈ ws, w ∈ W.words) : normalize (unwords ws) = unwords ws := by
  have hflat : (ws.flatMap fun w => words (lower (nfkd w))) = ws := by
    rw [List.flatMap_congr fun w hw => words_of_mem_wordlist (h w hw)]
    exact List.flatMap_singleton' ws
  rw [normalize, words_lower_nfkd_unwords hapart hne, hflat]

omit [Library] in
theorem splitOn_unwords {ws : List Text} (hne : ws ≠ []) (h : ∀ w ∈ ws, w ∈ W.words) :
    (unwords ws).splitOn SPACE = ws := by
  refine List.splitOn_intercalate SPACE (fun w hw hspace => ?_) hne
  have hword := (W.isWord w (h w hw)).2 SPACE hspace
  rw [isSpace_SPACE] at hword
  cases hword

/-! ## One to one -/

/-- What the reader accepts is a phrase of one of the five sizes. -/
theorem size_of_mnemonicToEntropy {mnemonic : Text} {entropy : Bytes}
    (h : mnemonicToEntropy W mnemonic = .ok entropy) :
    ∃ k ds, 4 ≤ k ∧ k ≤ 8 ∧ (∀ d ∈ ds, d < 2048) ∧ ds.length = 3 * k ∧
      (normalize mnemonic).splitOn SPACE = W.phrase ds := by
  unfold mnemonicToEntropy at h
  dsimp only at h
  split at h
  · cases h
  rename_i hvalid
  obtain ⟨bits, hread, -⟩ := bind_eq_ok.1 h
  obtain ⟨ds, hds, hphrase⟩ := W.exists_phrase (mem_of_foldlM_pushWord hread)
  have hlen : ((normalize mnemonic).splitOn SPACE).length = ds.length := by
    rw [hphrase, Wordlist.phrase, List.length_map]
  rw [not_not, hlen] at hvalid
  refine ⟨ds.length / 3, ds, ?_⟩
  simp only [List.mem_cons, List.not_mem_nil, or_false] at hvalid
  exact ⟨by omega, by omega, hds, by omega, hphrase⟩

/-- **Passphrases and entropy correspond one to one**: entropy of each of
the five sizes is read back from its phrase, and whatever phrase is
accepted is, normalized, the phrase of the entropy it gives. -/
theorem mnemonic_entropy_one_to_one (W : Wordlist) (hapart : SpacesApart) :
    (∀ entropy : Bytes, entropy.length ∈ VALID_ENTROPY_BYTES →
      ∃ mnemonic, entropyToMnemonic W entropy = .ok mnemonic ∧
        mnemonicToEntropy W mnemonic = .ok entropy) ∧
    ∀ (mnemonic : Text) (entropy : Bytes), mnemonicToEntropy W mnemonic = .ok entropy →
      entropyToMnemonic W entropy = .ok (normalize mnemonic) := by
  constructor
  · intro entropy hvalid
    obtain ⟨k, h4, h8, hlen⟩ : ∃ k, 4 ≤ k ∧ k ≤ 8 ∧ entropy.length = 4 * k := by
      simp only [VALID_ENTROPY_BYTES, List.mem_cons, List.not_mem_nil, or_false] at hvalid
      exact ⟨entropy.length / 4, by omega, by omega, by omega⟩
    obtain ⟨n, hn⟩ : ∃ n, n = beNat entropy * 2 ^ k + checksumOf entropy k := ⟨_, rfl⟩
    have hcheck := checksumOf_lt entropy h8
    have hentropy : beNat entropy < 256 ^ (4 * k) := hlen ▸ beNat_lt entropy
    have hlt : n < 2048 ^ (3 * k) := by
      rw [two_pow_eq_pow, hn]
      calc beNat entropy * 2 ^ k + checksumOf entropy k < (beNat entropy + 1) * 2 ^ k := by
            rw [add_mul, one_mul]
            omega
        _ ≤ 256 ^ (4 * k) * 2 ^ k := Nat.mul_le_mul_right _ hentropy
    have hds : ∀ d ∈ Positional.fixed 2048 (3 * k) n, d < 2048 :=
      fun d hd => Positional.fixed_lt (by decide) hd
    have hne : W.phrase (Positional.fixed 2048 (3 * k) n) ≠ [] := by
      rw [Ne, ← List.length_eq_zero_iff, Wordlist.phrase, List.length_map, Positional.length_fixed]
      omega
    have hmem := W.phrase_mem hds
    have hnormal := normalize_unwords hapart hne hmem
    have hphrase : (normalize (unwords (W.phrase (Positional.fixed 2048 (3 * k) n)))).splitOn
        SPACE = W.phrase (Positional.fixed 2048 (3 * k) n) := by
      rw [hnormal, splitOn_unwords hne hmem]
    have hdiv : n / 2 ^ k = beNat entropy := by
      rw [hn, add_comm, Nat.add_mul_div_right _ _ (Nat.two_pow_pos k), Nat.div_eq_of_lt hcheck,
        zero_add]
    have hmod : n % 2 ^ k = checksumOf entropy k := by
      rw [hn, add_comm, Nat.add_mul_mod_self_right, Nat.mod_eq_of_lt hcheck]
    have hback : beBytes (4 * k) (beNat entropy) = entropy := by rw [← hlen, beBytes_beNat]
    refine ⟨_, entropyToMnemonic_eq h4 h8 hlen, ?_⟩
    rw [← hn, mnemonicToEntropy_eq h4 h8 hds (Positional.length_fixed _ _) hphrase,
      Positional.value_fixed hlt, hdiv, hmod, hback, if_pos rfl]
  · intro mnemonic entropy h
    obtain ⟨k, ds, h4, h8, hds, hlen, hphrase⟩ := size_of_mnemonicToEntropy h
    rw [mnemonicToEntropy_eq h4 h8 hds hlen hphrase] at h
    split at h
    · rename_i hcheck
      obtain rfl := Except.ok.inj h
      have hvalue := value_div_lt hds hlen
      have hfixed := Positional.fixed_value hds
      rw [hlen] at hfixed
      rw [entropyToMnemonic_eq h4 h8 (length_beBytes _ _), beNat_beBytes hvalue, ← hcheck,
        Nat.div_add_mod', hfixed, ← hphrase, unwords, List.intercalate_splitOn]
    · cases h

end

/-! ## A sample word list -/

attribute [local instance] Sample.primitives Sample.unicode

/-- A word of that many letters. -/
def Sample.letters (i : ℕ) : Text := List.replicate (i + 1) (ord 'a')

theorem Sample.isWord_letters (i : ℕ) : IsWord (Sample.letters i) := by
  refine ⟨List.cons_ne_nil _ _, fun c hc => ?_⟩
  rw [List.eq_of_mem_replicate hc]
  decide

theorem Sample.normalize_letters (i : ℕ) : normalize (Sample.letters i) = Sample.letters i := by
  have hlower : lower (nfkd (Sample.letters i)) = Sample.letters i :=
    List.map_replicate.trans rfl
  rw [normalize, hlower, words_of_isWord (Sample.isWord_letters i)]
  exact List.intercalate_singleton

theorem Sample.letters_injective : Function.Injective Sample.letters := by
  intro i j h
  have hlen := congrArg List.length h
  simpa [Sample.letters] using hlen

/-- The word list of one letter. -/
def Sample.wordlist : Wordlist where
  words := (List.range 2048).map Sample.letters
  length_eq := (List.length_map _).trans List.length_range
  nodup := List.nodup_range.map Sample.letters_injective
  isWord := List.forall_mem_map.2 fun i _ => Sample.isWord_letters i
  normalize_eq := List.forall_mem_map.2 fun i _ => Sample.normalize_letters i

theorem Sample.spacesApart : SpacesApart := ⟨fun _ _ => rfl, fun _ _ => List.map_append⟩

/-- Entropy of 16 zeros, written and read. -/
theorem mnemonic_entropy_one_to_one_sample :
    ∃ mnemonic, entropyToMnemonic Sample.wordlist (List.replicate 16 0) = .ok mnemonic ∧
      mnemonicToEntropy Sample.wordlist mnemonic = .ok (List.replicate 16 0) :=
  (mnemonic_entropy_one_to_one Sample.wordlist Sample.spacesApart).1 _ (by decide)

end TalCash.Crypto
