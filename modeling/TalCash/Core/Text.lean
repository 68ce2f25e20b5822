import Mathlib
/-!
# Python strings

A string is a sequence of code points, lone surrogates among them. What
depends on the Unicode tables enters as the class `Unicode`; the rest of
the string methods the code uses are defined here.
-/

namespace TalCash

/-- A code point. -/
abbrev CodePoint := Fin 0x110000

instance CodePoint.lawfulBEq : LawfulBEq CodePoint := inferInstance

/-- `str`. -/
abbrev Text := List CodePoint

/-- `ord(c)`. -/
def ord (c : Char) : CodePoint := Fin.ofNat _ c.toNat

/-- `chr(n)`. -/
def chr (n : ℕ) : CodePoint := Fin.ofNat _ n

theorem val_chr {n : ℕ} (h : n < 0x110000) : (chr n).val = n := Nat.mod_eq_of_lt h

/-- A literal. -/
def text (s : String) : Text := s.toList.map ord

/-- What the code takes from Python's Unicode tables. -/
class Unicode where
  /-- `repr(text)`. -/
  repr : Text → String
  /-- `unicodedata.normalize("NFKD", text)`. -/
  nfkd : Text → Text
  /-- `text.lower()`. -/
  lower : Text → Text
  /-- The categories `Cc`, `Zl` and `Zp`, and the characters of `_BIDI`. -/
  forbidden : CodePoint → Bool

export Unicode (nfkd lower forbidden)

/-- A sequence goes on with what its first part returned. -/
@[simp] theorem ok_bind {ε α β : Type} (a : α) (f : α → Except ε β) :
    (Except.ok a >>= f) = f a := rfl

/-- And raises what its first part raised. -/
@[simp] theorem error_bind {ε α β : Type} (e : ε) (f : α → Except ε β) :
    (Except.error e >>= f) = .error e := rfl

/-! ## Separators -/

/-- `text.partition(sep)`: what comes before the separator, and what comes
after it if it is there. -/
def partition (sep : CodePoint) (t : Text) : Text × Option Text :=
  (t.takeWhile (· ≠ sep), (t.dropWhile (· ≠ sep)).tail?)

theorem partition_append {sep : CodePoint} {before after : Text} (h : sep ∉ before) :
    partition sep (before ++ sep :: after) = (before, some after) := by
  have hall : ∀ c ∈ before, decide (c ≠ sep) = true := fun c hc =>
    decide_eq_true fun he => h (he ▸ hc)
  rw [partition, List.takeWhile_append_of_pos hall, List.dropWhile_append_of_pos hall,
    List.takeWhile_cons_of_neg (by simp), List.dropWhile_cons_of_neg (by simp), List.append_nil]
  rfl

theorem partition_of_not_mem {sep : CodePoint} {t : Text} (h : sep ∉ t) :
    partition sep t = (t, none) := by
  have hall : ∀ c ∈ t, decide (c ≠ sep) = true := fun c hc =>
    decide_eq_true fun he => h (he ▸ hc)
  rw [partition, List.takeWhile_eq_self_iff.2 hall, List.dropWhile_eq_nil_iff.2 hall]
  rfl

/-! ## Words -/

/-- The characters `str.split()` and `str.strip()` take for white space. -/
def isSpace (c : CodePoint) : Bool :=
  (0x09 ≤ c.val && c.val ≤ 0x0d) || (0x1c ≤ c.val && c.val ≤ 0x20) || c.val == 0x85 ||
    c.val == 0xa0 || c.val == 0x1680 || (0x2000 ≤ c.val && c.val ≤ 0x200a) || c.val == 0x2028 ||
    c.val == 0x2029 || c.val == 0x202f || c.val == 0x205f || c.val == 0x3000

/-- `text.strip()`. -/
def strip (t : Text) : Text := (t.dropWhile isSpace).rdropWhile isSpace

/-- `" "`. -/
def SPACE : CodePoint := ord ' '

/-- `text.split()`: the pieces between runs of white space. -/
def words (t : Text) : List Text := (t.splitOnP isSpace).filter fun w => !w.isEmpty

/-- `" ".join(words)`. -/
def unwords (ws : List Text) : Text := [SPACE].intercalate ws

/-- A piece `str.split()` can return. -/
def IsWord (w : Text) : Prop := w ≠ [] ∧ ∀ c ∈ w, isSpace c = false

theorem isSpace_SPACE : isSpace SPACE = true := by decide

theorem words_append_space (t t' : Text) : words (t ++ SPACE :: t') = words t ++ words t' := by
  rw [words, List.splitOnP_append_cons t t' isSpace_SPACE, List.filter_append]
  rfl

theorem not_mem_splitOnP {p : CodePoint → Bool} {t w : Text} (hw : w ∈ t.splitOnP p) :
    ∀ c ∈ w, p c = false := by
  induction t generalizing w with
  | nil =>
    intro c hc
    rw [List.splitOnP_nil, List.mem_singleton] at hw
    rw [hw] at hc
    cases hc
  | cons x t ih =>
    intro c hc
    rw [List.splitOnP_cons_eq_if_modifyHead] at hw
    split at hw
    · rcases List.mem_cons.1 hw with rfl | hw
      · cases hc
      · exact ih hw c hc
    · rename_i hx
      have hne : t.splitOnP p ≠ [] := List.splitOnP_ne_nil _ _
      obtain ⟨first, rest, hsplit⟩ := List.exists_cons_of_ne_nil hne
      rw [hsplit, List.modifyHead_cons, List.mem_cons] at hw
      rcases hw with rfl | hw
      · rcases List.mem_cons.1 hc with rfl | hc
        · simpa using hx
        · exact ih (by rw [hsplit]; exact List.mem_cons_self) c hc
      · exact ih (by rw [hsplit]; exact List.mem_cons_of_mem _ hw) c hc

/-- The pieces are words. -/
theorem isWord_of_mem_words {t w : Text} (h : w ∈ words t) : IsWord w := by
  obtain ⟨hmem, hne⟩ := List.mem_filter.1 h
  exact ⟨by simpa using hne, not_mem_splitOnP hmem⟩

theorem words_of_isWord {w : Text} (h : IsWord w) : words w = [w] := by
  rw [words, List.splitOnP_eq_singleton h.2]
  simp [h.1]

theorem words_unwords : ∀ {ws : List Text}, (∀ w ∈ ws, IsWord w) → words (unwords ws) = ws
  | [], _ => by simp [unwords, words]
  | [w], h => by
    rw [unwords, List.intercalate_singleton]
    exact words_of_isWord (h w List.mem_cons_self)
  | w :: w' :: ws, h => by
    have hrest : words (unwords (w' :: ws)) = w' :: ws :=
      words_unwords fun x hx => h x (List.mem_cons_of_mem _ hx)
    rw [unwords, List.intercalate_cons_cons, List.append_assoc, List.singleton_append,
      words_append_space, words_of_isWord (h w List.mem_cons_self)]
    rw [unwords] at hrest
    rw [hrest, List.singleton_append]

/-! ## A sample table -/

/-- `c.lower()`, of an ASCII character. -/
def Sample.lowerAscii (c : CodePoint) : CodePoint :=
  if 0x41 ≤ c.val ∧ c.val ≤ 0x5a then Fin.ofNat _ (c.val + 0x20) else c

/-- Unicode tables that are right on ASCII text. -/
@[reducible] def Sample.unicode : Unicode where
  repr t := s!"{t}"
  nfkd t := t
  lower t := t.map Sample.lowerAscii
  forbidden c := c.val < 0x20 || (0x7f ≤ c.val && c.val < 0xa0)

end TalCash
