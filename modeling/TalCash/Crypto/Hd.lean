import TalCash.Core.Utf8
import TalCash.Crypto.Address
import TalCash.Crypto.Mnemonic
/-!
# Key derivation

The keys of a seed, at hardened paths whose indexes are four bytes. There
is an address for every index from 0 up to `2 ^ 32` and for no other
(`deriveAddress_of_lt`, `deriveAddress_of_ge`).
-/

namespace TalCash.Crypto

/-- What key derivation takes from libraries. -/
class KeyLibrary where
  hmacSha512 : Bytes → Bytes → List.Vector UInt8 64
  pbkdf2 : Bytes → Bytes → Bytes
  publicKey : Bytes → PublicKey

export KeyLibrary (hmacSha512 pbkdf2 publicKey)

/-- The parameters of a network that addresses depend on. -/
structure Network where
  name : String
  addressPrefix : Text
  addressPrefix_ascii : IsAscii addressPrefix

theorem isAscii_tc : IsAscii (text "tc") := by decide

theorem isAscii_tt : IsAscii (text "tt") := by decide

theorem isAscii_td : IsAscii (text "td") := by decide

theorem isAscii_tr : IsAscii (text "tr") := by decide

def MAINNET : Network := ⟨"mainnet", text "tc", isAscii_tc⟩
def TESTNET : Network := ⟨"testnet", text "tt", isAscii_tt⟩
def DEVNET : Network := ⟨"devnet", text "td", isAscii_td⟩
def REGTEST : Network := ⟨"regtest", text "tr", isAscii_tr⟩

def HARDENED : ℤ := 0x80000000
def COIN_TYPE : ℤ := 84184

section

variable [KeyLibrary]

/-- The two halves of a digest: a key and a chain code. -/
def halves (digest : List.Vector UInt8 64) : Bytes × Bytes :=
  (digest.toList.take 32, digest.toList.drop 32)

/-- `master_key`. -/
def masterKey (seed : Bytes) : Bytes × Bytes :=
  halves (hmacSha512 ("ed25519 seed".toList.map fun c => UInt8.ofNat c.toNat) seed)

/-- `derive_child`. -/
def deriveChild (key chainCode : Bytes) (index : ℤ) : Except PyError (Bytes × Bytes) :=
  if index < HARDENED then .error (.value "Ed25519 supports hardened derivation only")
  else do
    let bytes ← toBytes 4 index.toNat
    pure (halves (hmacSha512 chainCode ([0] ++ key ++ bytes)))

/-- `derive_path`. -/
def derivePath (seed : Bytes) (path : List ℤ) : Except PyError Bytes := do
  let (key, _) ← path.foldlM (fun keys index => deriveChild keys.1 keys.2 index) (masterKey seed)
  pure key

/-- `wallet_private_key`. -/
def walletPrivateKey (seed : Bytes) (index account : ℤ) : Except PyError Bytes :=
  derivePath seed [Int.lor 44 HARDENED, Int.lor COIN_TYPE HARDENED, Int.lor account HARDENED,
    Int.lor index HARDENED]

/-- `to_seed`. -/
def toSeed [Unicode] (mnemonic passphrase : Text) : Except PyError Bytes := do
  let salt := text "mnemonic" ++ nfkd passphrase
  let password ← encodeUtf8 (normalize mnemonic)
  let salt ← encodeUtf8 salt
  pure (pbkdf2 password salt)

variable [Library]

/-- `payload_from_public_key`. -/
def payloadFromPublicKey (key : PublicKey) : Bytes :=
  [ADDRESS_VERSION] ++ (sha256 key.toList).toList.take 20

/-- `_derive_address`. -/
def deriveAddress (seed : Bytes) (index : ℤ) (params : Network) : Except PyError Text := do
  let privateKey ← walletPrivateKey seed index 0
  encodeAddress (payloadFromPublicKey (publicKey privateKey)) params.addressPrefix

/-! ## Which indexes have an address -/

omit [Library] in
/-- A level of the path that is not negative is hardened. -/
theorem deriveChild_lor (keys : Bytes × Bytes) (n : ℕ) :
    deriveChild keys.1 keys.2 (Int.lor n HARDENED) = (toBytes 4 (n ||| 2 ^ 31) >>= fun bytes =>
      pure (halves (hmacSha512 keys.2 ([0] ++ keys.1 ++ bytes)))) := by
  have hlor : Int.lor n HARDENED = ((n ||| 2 ^ 31 : ℕ) : ℤ) := rfl
  have hle : HARDENED ≤ ((n ||| 2 ^ 31 : ℕ) : ℤ) := Int.ofNat_le.2 Nat.right_le_or
  rw [hlor, deriveChild, if_neg (not_lt.2 hle), Int.toNat_natCast]

omit [Library] in
/-- An index of four bytes has a child. -/
theorem deriveChild_of_lt (keys : Bytes × Bytes) {n : ℕ} (h : n < 2 ^ 32) :
    ∃ keys', deriveChild keys.1 keys.2 (Int.lor n HARDENED) = .ok keys' := by
  have hlt : n ||| 2 ^ 31 < 256 ^ 4 := (Nat.or_lt_two_pow h (by norm_num)).trans_eq (by norm_num)
  rw [deriveChild_lor, toBytes, if_pos hlt]
  exact ⟨_, rfl⟩

omit [Library] in
/-- One that needs five bytes has none. -/
theorem deriveChild_of_ge (keys : Bytes × Bytes) {n : ℕ} (h : 2 ^ 32 ≤ n) :
    deriveChild keys.1 keys.2 (Int.lor n HARDENED) = .error .overflow := by
  have hge : ¬ n ||| 2 ^ 31 < 256 ^ 4 :=
    not_lt.2 ((show 256 ^ 4 = 2 ^ 32 by norm_num).trans_le (h.trans Nat.left_le_or))
  rw [deriveChild_lor, toBytes, if_neg hge]
  rfl

omit [Library] in
/-- A key depends on the last level of its path alone. -/
theorem walletPrivateKey_eq (seed : Bytes) :
    ∃ keys : Bytes × Bytes, ∀ index, walletPrivateKey seed index 0 =
      (deriveChild keys.1 keys.2 (Int.lor index HARDENED)).map Prod.fst := by
  obtain ⟨k₁, h₁⟩ := deriveChild_of_lt (masterKey seed) (n := 44) (by norm_num)
  obtain ⟨k₂, h₂⟩ := deriveChild_of_lt k₁ (n := 84184) (by norm_num)
  obtain ⟨k₃, h₃⟩ := deriveChild_of_lt k₂ (n := 0) (by norm_num)
  refine ⟨k₃, fun index => ?_⟩
  rw [walletPrivateKey, derivePath, List.foldlM_cons, show (44 : ℤ) = (44 : ℕ) from rfl, h₁,
    ok_bind, List.foldlM_cons, show COIN_TYPE = (84184 : ℕ) from rfl, h₂, ok_bind, List.foldlM_cons,
    show (0 : ℤ) = (0 : ℕ) from rfl, h₃, ok_bind, List.foldlM_cons]
  cases deriveChild k₃.1 k₃.2 (Int.lor index HARDENED) with
  | ok keys => rfl
  | error e => rfl

variable (seed : Bytes) (params : Network)

/-- **Every index of four bytes has an address.** -/
theorem deriveAddress_of_lt {n : ℕ} (h : n < 2 ^ 32) :
    ∃ address, deriveAddress seed n params = .ok address := by
  obtain ⟨keys, hkeys⟩ := walletPrivateKey_eq seed
  obtain ⟨keys', hkey⟩ := deriveChild_of_lt keys h
  have hknown : isKnownPayload (payloadFromPublicKey (publicKey keys'.1)) = true := by
    have hlen : (payloadFromPublicKey (publicKey keys'.1)).length = PAYLOAD_SIZE := by
      rw [payloadFromPublicKey, List.length_append, List.length_take,
        List.Vector.toList_length]
      rfl
    rw [isKnownPayload, hlen]
    rfl
  obtain ⟨check, hcheck, -⟩ := checksum_isOk params.addressPrefix_ascii
    (payloadFromPublicKey (publicKey keys'.1))
  rw [deriveAddress, hkeys, hkey]
  exact ⟨_, (encodeAddress_eq_ok_iff hknown).2 ⟨check, hcheck, rfl⟩⟩

/-- **No greater index has one.** -/
theorem deriveAddress_of_ge {n : ℕ} (h : 2 ^ 32 ≤ n) :
    deriveAddress seed n params = .error .overflow := by
  obtain ⟨keys, hkeys⟩ := walletPrivateKey_eq seed
  rw [deriveAddress, hkeys, deriveChild_of_ge keys h]
  rfl

/-- **Nor has a negative one.** -/
theorem deriveAddress_negSucc (n : ℕ) :
    ∃ detail, deriveAddress seed (Int.negSucc n) params = .error (.value detail) := by
  obtain ⟨keys, hkeys⟩ := walletPrivateKey_eq seed
  have hneg : Int.lor (Int.negSucc n) HARDENED < HARDENED :=
    (Int.negSucc_lt_zero _).trans (by decide)
  rw [deriveAddress, hkeys, deriveChild, if_pos hneg]
  exact ⟨_, rfl⟩

end

end TalCash.Crypto
