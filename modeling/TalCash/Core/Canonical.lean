import TalCash.Core.Block
/-!
# Decoding is canonical

What a reader takes off its input is what the value it returns is written
as, so a byte string that is accepted is the only encoding of what it is
decoded to. On any other byte string the decoders raise `DecodeError`.
`Takes` follows a reader through its layout; `blockFromBytes_ok_iff` and
its siblings say what is accepted.
-/

namespace TalCash

open BigEndian

/-- The exception is a `DecodeError`. -/
def PyError.IsDecode (e : PyError) : Prop := ∃ detail, e = .decode detail

/-- The reader takes bytes off its input that are related to what it
returns, and raises nothing but `DecodeError`. -/
def Takes {α : Type} (x : Reader α) (R : α → Bytes → Prop) : Prop :=
  ∀ s, Exec.wp x (fun a s' => ∃ b, s.remaining = b ++ s'.remaining ∧ R a b)
    (fun e _ => e.IsDecode) s

namespace Takes

variable {α β : Type} {x : Reader α} {f : α → Reader β} {R : α → Bytes → Prop}
variable {T : β → Bytes → Prop}

theorem pure {a : α} (h : R a []) : Takes (Pure.pure a) R :=
  fun _ => Exec.wp_pure.2 ⟨[], rfl, h⟩

theorem throw (detail : String) : Takes (MonadExcept.throw (.decode detail)) R :=
  fun _ => Exec.wp_throw.2 ⟨detail, rfl⟩

theorem bind (hx : Takes x R) (hf : ∀ a b, R a b → Takes (f a) fun c b' => T c (b ++ b')) :
    Takes (x >>= f) T := by
  intro s
  rw [Exec.wp_bind]
  refine (hx s).mono ?_ fun _ _ he => he
  rintro a s₁ ⟨b, hs, hR⟩
  refine (hf a b hR s₁).mono ?_ fun _ _ he => he
  rintro c s₂ ⟨b', hs₁, hT⟩
  exact ⟨b ++ b', by rw [hs, hs₁, List.append_assoc], hT⟩

theorem mono {R' : α → Bytes → Prop} (hx : Takes x R) (h : ∀ a b, R a b → R' a b) : Takes x R' := by
  intro s
  refine (hx s).mono ?_ fun _ _ he => he
  rintro a s' ⟨b, hs, hR⟩
  exact ⟨b, hs, h a b hR⟩

theorem take (n : ℕ) : Takes (Reader.take n) fun v b => b = v.1 := by
  intro s
  by_cases hn : n ≤ s.remaining.length
  · have hrun : Reader.take n s = .ok ⟨s.remaining.take n, List.length_take_of_le hn⟩
        ⟨s.position + n, s.remaining.drop n⟩ := by
      rw [Reader.take, dif_pos hn]
    rw [Exec.wp_ok hrun]
    exact ⟨_, (List.take_append_drop n s.remaining).symm, rfl⟩
  · have hrun : ∃ d, Reader.take n s = .error (.decode d) s :=
      ⟨_, by rw [Reader.take, dif_neg hn]⟩
    obtain ⟨d, hrun⟩ := hrun
    rw [Exec.wp_error hrun]
    exact ⟨d, rfl⟩

theorem fixed (n : ℕ) : Takes (Reader.fixed n) fun v b => b = v.1 := take n

theorem uint (size : ℕ) : Takes (Reader.uint size) fun n b => b = beBytes size n.1 := by
  refine (take size).bind fun v b hb => pure ?_
  obtain ⟨v, rfl⟩ := v
  rw [hb, List.append_nil, beBytes_beNat]

theorem var8 : Takes Reader.var8 fun v b => b = var8Bytes v.1 := by
  refine (uint 1).bind fun n b hb => (take n.1).bind fun v c hc => pure ?_
  rw [hb, hc, List.append_nil, var8Bytes, v.2]

/-- A reader repeated takes the encodings one after the other. -/
theorem many {enc : α → Bytes} (hx : Takes x fun a b => b = enc a) : ∀ n : ℕ,
    Takes (Reader.many x n) fun l b => b = l.1.flatMap enc
  | 0 => pure rfl
  | n + 1 => by
    refine hx.bind fun a b hb => (many hx n).bind fun l c hc => pure ?_
    rw [hb, hc, List.append_nil, List.flatMap_cons]

/-- A whole byte string is related to what is read from it. -/
theorem onBytes (hx : Takes x R) {data : Bytes} :
    (∀ a, x.onBytes data = .ok a → R a data) ∧ Raises PyError.IsDecode (x.onBytes data) := by
  have h : Exec.wp (do let a ← x; Reader.expectEnd; Pure.pure a) (fun a _ => R a data)
      (fun e _ => e.IsDecode) ⟨0, data⟩ := by
    rw [Exec.wp_bind]
    refine (hx _).mono ?_ fun _ _ he => he
    rintro a s ⟨b, hs, hR⟩
    rw [Exec.wp_bind]
    by_cases hl : s.remaining.length = 0
    · have hrun : Reader.expectEnd s = .ok () s := by
        simp only [Reader.expectEnd, hl, ne_eq, not_true_eq_false, if_false]
      rw [Exec.wp_ok hrun, Exec.wp_pure]
      rw [List.length_eq_zero_iff.1 hl, List.append_nil] at hs
      rw [show data = b from hs]
      exact hR
    · obtain ⟨d, hrun⟩ : ∃ d, Reader.expectEnd s = .error (.decode d) s :=
        ⟨_, by simp only [Reader.expectEnd, ne_eq, hl, not_false_eq_true, if_true]; rfl⟩
      rw [Exec.wp_error hrun]
      exact ⟨d, rfl⟩
  constructor
  · intro a ha
    obtain ⟨s', hs'⟩ := Exec.outcome_ok_iff.1 ha
    exact h.ok hs'
  · intro e he
    unfold Reader.onBytes Exec.outcome at he
    split at he
    · cases he
    · rename_i hrun
      rw [← Except.error.inj he]
      exact h.error hrun

end Takes

/-! ## The layouts -/

theorem takes_output : Takes readOutput fun o b => b = o.serialize := by
  refine (Takes.fixed 21).bind fun a b hb => (Takes.uint 8).bind fun n c hc => Takes.pure ?_
  rw [hb, hc, List.append_nil, Output.serialize]

theorem takes_transfer (networkId : {n : ℕ // n < 256 ^ 1}) : Takes (readTransfer networkId)
    fun tx b => beBytes 1 TX_VERSION ++ (beBytes 1 networkId.1 ++ (beBytes 1 TYPE_TRANSFER ++ b)) =
      tx.serialize := by
  refine (Takes.fixed 32).bind fun key b₁ h₁ => (Takes.uint 8).bind fun nonce b₂ h₂ =>
    (Takes.uint 8).bind fun fee b₃ h₃ => (Takes.uint 1).bind fun count b₄ h₄ =>
    (takes_output.many count.1).bind fun outputs b₅ h₅ => Takes.var8.bind fun memo b₆ h₆ =>
    (Takes.fixed 64).bind fun signature b₇ h₇ => Takes.pure ?_
  simp only [h₁, h₂, h₃, h₄, h₅, h₆, h₇, Transaction.serialize, Transfer.serialize,
    Transfer.unsignedBytes, outputs.2, List.append_assoc, List.append_nil]

theorem takes_coinbase (networkId : {n : ℕ // n < 256 ^ 1}) : Takes (readCoinbase networkId)
    fun tx b => beBytes 1 TX_VERSION ++ (beBytes 1 networkId.1 ++ (beBytes 1 TYPE_COINBASE ++ b)) =
      tx.serialize := by
  refine (Takes.uint 8).bind fun height b₁ h₁ => (Takes.fixed 21).bind fun address b₂ h₂ =>
    (Takes.uint 8).bind fun amount b₃ h₃ => Takes.var8.bind fun memo b₄ h₄ => Takes.pure ?_
  simp only [h₁, h₂, h₃, h₄, Transaction.serialize, Coinbase.serialize, List.append_nil]

theorem takes_transaction : Takes readTransaction fun tx b => b = tx.serialize := by
  refine (Takes.uint 1).bind fun version b₁ h₁ => ?_
  split
  · exact Takes.throw _
  rename_i hversion
  refine (Takes.uint 1).bind fun networkId b₂ h₂ => (Takes.uint 1).bind fun kind b₃ h₃ => ?_
  rw [not_not] at hversion
  rw [hversion] at h₁
  split
  · rename_i hkind
    refine (takes_transfer networkId).mono fun tx b hb => ?_
    rw [← hb, h₁, h₂, h₃, hkind]
  split
  · rename_i hkind
    refine (takes_coinbase networkId).mono fun tx b hb => ?_
    rw [← hb, h₁, h₂, h₃, hkind]
  · exact Takes.throw _

theorem takes_header : Takes readHeader fun h b => b = h.serialize := by
  refine (Takes.uint 4).bind fun version b₁ h₁ => (Takes.uint 8).bind fun height b₂ h₂ =>
    (Takes.fixed 32).bind fun prevId b₃ h₃ => (Takes.fixed 32).bind fun merkleRoot b₄ h₄ =>
    (Takes.fixed 32).bind fun snapshotRoot b₅ h₅ => (Takes.uint 8).bind fun timestamp b₆ h₆ =>
    (Takes.uint 32).bind fun target b₇ h₇ => (Takes.uint 8).bind fun nonce b₈ h₈ => Takes.pure ?_
  simp only [h₁, h₂, h₃, h₄, h₅, h₆, h₇, h₈, BlockHeader.serialize, List.append_nil]

theorem takes_block : Takes readBlock fun block b => b = block.serialize := by
  refine takes_header.bind fun header b₁ h₁ => (Takes.uint 4).bind fun count b₂ h₂ =>
    (takes_transaction.many count.1).bind fun transactions b₃ h₃ => Takes.pure ?_
  simp only [h₁, h₂, h₃, Block.serialize, transactions.2, List.append_nil]

/-! ## What is accepted -/

theorem raises_blockFromBytes (data : Bytes) : Raises PyError.IsDecode (blockFromBytes data) :=
  takes_block.onBytes.2

theorem headerFromBytes_ok_iff {data : Bytes} {header : BlockHeader} :
    headerFromBytes data = .ok header ↔ data = header.serialize :=
  ⟨takes_header.onBytes.1 header, fun h => h ▸ (reads_header header).onBytes⟩

/-- `transaction_from_bytes`. -/
def transactionFromBytes (data : Bytes) : Except PyError Transaction := readTransaction.onBytes data

/-- A decoder that accepts exactly the encodings: it reads back what was
written, only the encoding of a value is decoded to it, and any other byte
string is refused with `DecodeError`. -/
structure CanonicalDecoder {α : Type} (serialize : α → Bytes)
    (decode : Bytes → Except PyError α) : Prop where
  reads : ∀ a, decode (serialize a) = .ok a
  writes : ∀ data a, decode data = .ok a → serialize a = data
  refuses : ∀ data, (∀ a, decode data ≠ .ok a) → ∃ detail, decode data = .error (.decode detail)

/-- A reader that reads back what was written, and takes nothing else, is
canonical on whole byte strings. -/
theorem CanonicalDecoder.of_takes {α : Type} {serialize : α → Bytes} {x : Reader α}
    (hr : ∀ a, Reads x (serialize a) a) (ht : Takes x fun a b => b = serialize a) :
    CanonicalDecoder serialize x.onBytes where
  reads a := (hr a).onBytes
  writes data a h := (ht.onBytes.1 a h).symm
  refuses data h := by
    cases he : x.onBytes data with
    | ok a => exact absurd he (h a)
    | error e =>
      obtain ⟨detail, rfl⟩ := ht.onBytes.2 e he
      exact ⟨detail, rfl⟩

/-- **Every object has exactly one encoding**: every transaction of either
kind, every header and every block. -/
theorem canonicalDecoders :
    CanonicalDecoder Transaction.serialize transactionFromBytes ∧
      CanonicalDecoder BlockHeader.serialize headerFromBytes ∧
      CanonicalDecoder Block.serialize blockFromBytes :=
  ⟨.of_takes reads_transaction takes_transaction, .of_takes reads_header takes_header,
    .of_takes reads_block takes_block⟩

end TalCash
