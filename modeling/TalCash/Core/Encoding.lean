import TalCash.Core.Primitives
/-!
# Canonical binary encoding

The writer's and reader's primitives: fixed-width big-endian integers,
fixed-size and length-prefixed byte strings. `Reads x b a` says that the
reader `x` started on `b` (followed by anything) consumes exactly `b` and
returns `a`; the lemmas compose it along a layout.
-/

namespace TalCash

open BigEndian

/-! ## Writing -/

/-- `_uint_bytes`: refuses what does not fit. -/
def uintBytes (value size : ℕ) : Except PyError Bytes :=
  if 256 ^ size ≤ value then
    .error (.value s!"{value} does not fit in {size} unsigned bytes")
  else .ok (beBytes size value)

/-- `Writer.var8`, of at most 255 bytes. -/
def var8Bytes (data : Bytes) : Bytes := beBytes 1 data.length ++ data

/-! ## Reading -/

/-- Where a reader stands: the offset, and the bytes from there on. -/
structure Input where
  position : ℕ
  remaining : Bytes

/-- A reader of `α`. -/
abbrev Reader (α : Type) := Exec PyError Input α

namespace Reader

/-- `Reader._take`. -/
def take (size : ℕ) : Reader {b : Bytes // b.length = size} := fun s =>
  let offset := s.position
  if h : size ≤ s.remaining.length then
    .ok ⟨s.remaining.take size, List.length_take_of_le h⟩ ⟨offset + size, s.remaining.drop size⟩
  else .error (.decode s!"unexpected end of data (need {size} bytes at offset {offset})") s

/-- An unsigned integer of `size` bytes. -/
def uint (size : ℕ) : Reader {n : ℕ // n < 256 ^ size} := do
  let b ← take size
  pure ⟨beNat b.1, lt_of_lt_of_eq (beNat_lt b.1) (congrArg (256 ^ ·) b.2)⟩

/-- `Reader.u8`. -/
def u8 : Reader {n : ℕ // n < 256 ^ 1} := uint 1
/-- `Reader.u32`. -/
def u32 : Reader {n : ℕ // n < 256 ^ 4} := uint 4
/-- `Reader.u64`. -/
def u64 : Reader {n : ℕ // n < 256 ^ 8} := uint 8
/-- `Reader.u256`. -/
def u256 : Reader {n : ℕ // n < 256 ^ 32} := uint 32

/-- `Reader.fixed`. -/
def fixed (size : ℕ) : Reader (List.Vector UInt8 size) := take size

/-- `Reader.var8`. -/
def var8 : Reader {b : Bytes // b.length < 256 ^ 1} := do
  let n ← u8
  let b ← take n.1
  pure ⟨b.1, lt_of_eq_of_lt b.2 n.2⟩

/-- The same reader `n` times over. -/
def many {α : Type} (x : Reader α) : (n : ℕ) → Reader {l : List α // l.length = n}
  | 0 => pure ⟨[], rfl⟩
  | n + 1 => do
    let a ← x
    let l ← many x n
    pure ⟨a :: l.1, congrArg (· + 1) l.2⟩

/-- `Reader.expect_end`. -/
def expectEnd : Reader Unit := fun s =>
  let trailing := s.remaining.length
  if trailing ≠ 0 then .error (.decode s!"{trailing} trailing bytes") s else .ok () s

/-- Run a reader on a whole byte string. -/
def onBytes {α : Type} (x : Reader α) (data : Bytes) : Except PyError α :=
  Exec.outcome (do let a ← x; expectEnd; pure a) ⟨0, data⟩

end Reader

/-! ## Reading back what was written -/

/-- The reader consumes exactly `b`, whatever follows, and returns `a`. -/
def Reads {α : Type} (x : Reader α) (b : Bytes) (a : α) : Prop :=
  ∀ p rest, x ⟨p, b ++ rest⟩ = .ok a ⟨p + b.length, rest⟩

namespace Reads

variable {α β : Type} {x : Reader α} {f : α → Reader β} {a : α} {b c : Bytes} {d : β}

theorem pure (a : α) : Reads (Pure.pure a) [] a := fun _ _ => rfl

theorem bind (hx : Reads x b a) (hf : Reads (f a) c d) : Reads (x >>= f) (b ++ c) d := by
  intro p rest
  change EStateM.bind x f _ = _
  unfold EStateM.bind
  rw [List.append_assoc, hx p (c ++ rest)]
  change f a _ = _
  rw [hf, List.length_append, Nat.add_assoc]

/-- A last read, its value turned into the result. -/
theorem bind_pure {g : α → β} (hx : Reads x b a) :
    Reads (x >>= fun a => Pure.pure (g a)) b (g a) := by
  have := hx.bind (f := fun a => Pure.pure (g a)) (Reads.pure (g a))
  rwa [List.append_nil] at this

theorem take (b : Bytes) : Reads (Reader.take b.length) b ⟨b, rfl⟩ := by
  intro p rest
  have h : b.length ≤ (b ++ rest).length := by simp
  simp only [Reader.take, dif_pos h, List.take_left, List.drop_left]

theorem take_of_length {n : ℕ} (b : Bytes) (h : b.length = n) :
    Reads (Reader.take n) b ⟨b, h⟩ := by
  subst h; exact Reads.take b

theorem fixed {n : ℕ} (v : List.Vector UInt8 n) : Reads (Reader.fixed n) v.1 v :=
  Reads.take_of_length v.1 v.2

theorem uint {size n : ℕ} (h : n < 256 ^ size) :
    Reads (Reader.uint size) (beBytes size n) ⟨n, h⟩ := by
  have := (Reads.take_of_length (beBytes size n) (length_beBytes size n)).bind_pure
    (g := fun b : {b : Bytes // b.length = size} =>
      (⟨beNat b.1, lt_of_lt_of_eq (beNat_lt b.1) (congrArg (256 ^ ·) b.2)⟩ : {n : ℕ // n < 256 ^ size}))
  have he : (⟨n, h⟩ : {n : ℕ // n < 256 ^ size}) =
      ⟨beNat (beBytes size n), by rw [beNat_beBytes h]; exact h⟩ :=
    Subtype.ext (beNat_beBytes h).symm
  rw [he]
  exact this

theorem var8 {b : Bytes} (h : b.length < 256 ^ 1) : Reads Reader.var8 (var8Bytes b) ⟨b, h⟩ :=
  (Reads.uint h).bind (Reads.take b).bind_pure

theorem many {x : Reader α} {enc : α → Bytes} {l : List α} (h : ∀ a ∈ l, Reads x (enc a) a) :
    Reads (Reader.many x l.length) (l.flatMap enc) ⟨l, rfl⟩ := by
  induction l with
  | nil => exact Reads.pure _
  | cons a l ih =>
    exact (h a List.mem_cons_self).bind
      (ih fun b hb => h b (List.mem_cons_of_mem _ hb)).bind_pure

/-- A whole byte string read back. -/
theorem onBytes (hx : Reads x b a) : x.onBytes b = .ok a := by
  have := hx 0 []
  rw [List.append_nil] at this
  simp only [Reader.onBytes, Exec.outcome, Bind.bind, EStateM.bind, this, Reader.expectEnd,
    List.length_nil, ne_eq, not_true_eq_false, if_false]
  rfl

end Reads

/-- What a reader makes of a byte string does not depend on what follows,
so two values with one encoding are equal. -/
theorem Reads.injective {α : Type} {x : Reader α} {b : Bytes} {a a' : α} (h : Reads x b a)
    (h' : Reads x b a') : a = a' := by
  have := (h 0 []).symm.trans (h' 0 [])
  exact (EStateM.Result.ok.inj this).1

end TalCash
