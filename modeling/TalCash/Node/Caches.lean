import TalCash.Node.BlockFiles
/-!
# Reads through the caches

What each operation on block files does to the files and to the two
caches. A read leaves the files alone and adds to the caches only what
the files hold (`Reading`). The cache of recent blocks agrees with the
files after every operation (`RecentCoherent`); for the cached segments
that takes a condition on what is written, since no write drops them.
-/

namespace TalCash

namespace BlockFiles

variable {f f' : BlockFiles} {name : FileName} {data : Bytes}

/-! ## The cache of recent blocks -/

/-- The size kept beside the cache of recent blocks is its size. -/
def Sized (f : BlockFiles) : Prop :=
  f.recentCacheBytes = f.recentCache.total fun _ d => d.length

/-- The cache of recent blocks holds recent blocks, as the files have
them. -/
structure RecentCoherent (f : BlockFiles) : Prop where
  recent : ∀ name data, f.recentCache.lookup name = some data →
    ∃ height blockId, name = .recent height blockId
  agree : ∀ name data, f.recentCache.lookup name = some data → f.disk.lookup name = some data
  sized : f.Sized

theorem cacheDrop_spec (hf : f.Sized) (name : FileName) :
    Exec.wp (cacheDrop name) (fun _ f' =>
      f'.disk = f.disk ∧ f'.segments = f.segments ∧ f'.Sized ∧
        ∀ n d, f'.recentCache.lookup n = some d ↔ n ≠ name ∧ f.recentCache.lookup n = some d)
      (fun _ _ => False) f := by
  unfold cacheDrop
  rw [Exec.wp_modify]
  cases h : f.recentCache.lookup name with
  | none =>
    refine ⟨rfl, rfl, hf, fun n d => ⟨fun hn => ⟨?_, hn⟩, fun hn => hn.2⟩⟩
    rintro rfl
    rw [h] at hn
    cases hn
  | some data =>
    refine ⟨rfl, rfl, ?_, fun n d => ?_⟩
    · have ht := Table.total_remove (f := fun (_ : FileName) (d : Bytes) => d.length) h
      change f.recentCacheBytes - data.length = _
      rw [hf, ht, Nat.add_sub_cancel_left]
    · change (Table.remove name f.recentCache).lookup n = some d ↔ _
      rw [Table.lookup_remove]
      by_cases hn : n = name
      · rw [if_pos hn]
        exact ⟨fun h => (nomatch h), fun h => absurd hn h.1⟩
      · rw [if_neg hn]
        exact ⟨fun h => ⟨hn, h⟩, fun h => h.2⟩

/-- Shrinking ends with the cache within its size, and drops entries only. -/
theorem shrinkCache_spec : ∀ (entries : ℕ) {f : BlockFiles}, f.Sized →
    f.recentCache.entries.length = entries →
    Exec.wp (shrinkCache entries) (fun _ f' =>
      f'.disk = f.disk ∧ f'.segments = f.segments ∧ f'.Sized ∧
        ∀ n d, f'.recentCache.lookup n = some d → f.recentCache.lookup n = some d)
      (fun _ _ => False) f
  | 0, f, hf, hl => by
    have he : f.recentCache.entries = [] := List.length_eq_zero_iff.1 hl
    have hz : f.recentCacheBytes = 0 := by rw [hf, Table.total_of_entries_nil he]
    have hlt : ¬ RECENT_CACHE_BYTES < f.recentCacheBytes := by rw [hz]; exact Nat.not_lt_zero _
    simp only [shrinkCache, Exec.wp_bind, Exec.wp_get, if_neg hlt, Exec.wp_pure]
    exact ⟨trivial, trivial, hf, fun _ _ h => h⟩
  | entries + 1, f, hf, hl => by
    simp only [shrinkCache, Exec.wp_bind, Exec.wp_get]
    rw [Exec.wp_ite]
    refine ⟨fun _ => ?_, fun _ => Exec.wp_pure.2 ⟨rfl, rfl, hf, fun _ _ h => h⟩⟩
    cases ho : Table.oldest f.recentCache with
    | none =>
      rw [Table.oldest_eq_none.1 ho] at hl
      cases hl
    | some name =>
      obtain ⟨data, hd⟩ := Table.lookup_oldest ho
      have hlen := Table.length_remove hd
      rw [Exec.wp_bind]
      have hrun : cacheDrop name f = .ok () { f with
          recentCache := Table.remove name f.recentCache
          recentCacheBytes := f.recentCacheBytes - data.length } := by
        simp only [cacheDrop, Exec.modify_apply, hd]
      obtain ⟨hdisk, hseg, hsized, hlook⟩ := (cacheDrop_spec hf name).ok hrun
      rw [Exec.wp_ok hrun]
      refine (shrinkCache_spec entries hsized (by simp only; omega)).mono ?_ fun _ _ h => h
      rintro _ f' ⟨h1, h2, h3, h4⟩
      exact ⟨h1.trans hdisk, h2.trans hseg, h3, fun n d h => ((hlook n d).1 (h4 n d h)).2⟩

theorem cachePut_spec (hf : f.Sized) (name : FileName) (data : Bytes) :
    Exec.wp (cachePut name data) (fun _ f' =>
      f'.disk = f.disk ∧ f'.segments = f.segments ∧ f'.Sized ∧
        ∀ n d, f'.recentCache.lookup n = some d →
          n = name ∧ d = data ∨ n ≠ name ∧ f.recentCache.lookup n = some d)
      (fun _ _ => False) f := by
  unfold cachePut
  rw [Exec.wp_bind]
  refine (cacheDrop_spec hf name).mono ?_ fun _ _ h => h
  rintro _ f₁ ⟨hdisk, hseg, hsized, hlook⟩
  have hnone : f₁.recentCache.lookup name = none := by
    cases h : f₁.recentCache.lookup name with
    | none => rfl
    | some d => exact absurd rfl ((hlook name d).1 h).1
  simp only [Exec.wp_bind, Exec.wp_modify, Exec.wp_get]
  have hput : Sized { f₁ with
      recentCache := Table.put name data f₁.recentCache
      recentCacheBytes := f₁.recentCacheBytes + data.length } := by
    change f₁.recentCacheBytes + data.length = _
    rw [Table.total_put_of_lookup_none hnone, hsized, Nat.add_comm]
  refine (shrinkCache_spec _ hput rfl).mono ?_ fun _ _ h => h
  rintro _ f₂ ⟨h1, h2, h3, h4⟩
  refine ⟨h1.trans hdisk, h2.trans hseg, h3, fun n d h => ?_⟩
  have := h4 n d h
  rw [Table.lookup_put] at this
  by_cases hn : n = name
  · rw [if_pos hn, Option.some.injEq] at this
    exact Or.inl ⟨hn, this.symm⟩
  · rw [if_neg hn] at this
    exact Or.inr ((hlook n d).1 this)

theorem RecentCoherent.of_eq (hf : f.RecentCoherent) (hd : f'.disk = f.disk)
    (hc : f'.recentCache = f.recentCache) (hb : f'.recentCacheBytes = f.recentCacheBytes) :
    f'.RecentCoherent :=
  ⟨fun n d h => hf.recent n d (hc ▸ h), fun n d h => by rw [hd]; exact hf.agree n d (hc ▸ h),
    by rw [Sized, hb, hc]; exact hf.sized⟩

theorem lookup_segmentsPut {key key' : ℕ × ℕ} {g g' : List Bytes} {f : BlockFiles}
    (h : (segmentsPut key g f).segments.lookup key' = some g') :
    key' = key ∧ g' = g ∨ f.segments.lookup key' = some g' := by
  unfold segmentsPut at h
  have h' : (Table.put key g f.segments).lookup key' = some g' := by
    dsimp only at h
    split at h
    · exact Table.lookup_of_dropOldest h
    · exact h
  rw [Table.lookup_put] at h'
  split at h'
  · rename_i hk
    exact Or.inl ⟨hk, (Option.some.inj h').symm⟩
  · exact Or.inr h'

end BlockFiles

variable [Primitives]

/-! ## A stream ends where it ends -/

omit [Primitives] in
theorem unpackSegment_complete [Library] {data : Bytes} {m : ℕ} {g : List Bytes}
    (h : unpackSegment data m = .ok g) : (inflate data).ending = .complete := by
  unfold unpackSegment at h
  dsimp only at h
  by_contra hc
  split_ifs at h

omit [Primitives] in
theorem slice_append (data : Bytes) (offset n m : ℕ) :
    slice data offset (n + m) = slice data offset n ++ slice data (offset + n) m := by
  simp only [slice, List.take_add, List.drop_drop]

/-- Two complete streams at one offset are one stream. -/
theorem slice_eq_of_complete {data : Bytes} {offset n m : ℕ}
    (hn : (inflate (slice data offset n)).ending = .complete)
    (hm : (inflate (slice data offset m)).ending = .complete) :
    slice data offset n = slice data offset m := by
  wlog h : n ≤ m generalizing n m
  · exact (this hm hn (by omega)).symm
  · obtain ⟨k, rfl⟩ := Nat.exists_eq_add_of_le h
    rw [slice_append] at hm ⊢
    rw [Primitives.inflate_append _ _ hn hm, List.append_nil]

namespace BlockFiles

variable {f f' : BlockFiles}

/-! ## Reading -/

/-- What the file of a chunk unpacks to at an offset and a length. -/
def diskSegment (f : BlockFiles) (index offset length : ℕ) : Except PyError (List Bytes) :=
  match f.disk.lookup (.chunk index) with
  | none => .error .key
  | some data => unpackSegment (slice data offset length)

/-- From `f` to `f'` the files were only read. -/
structure Reading (f f' : BlockFiles) : Prop where
  disk : f'.disk = f.disk
  segments : ∀ index offset g, f'.segments.lookup (index, offset) = some g →
    f.segments.lookup (index, offset) = some g ∨ ∃ length, f.diskSegment index offset length = .ok g
  recent : f.RecentCoherent → f'.RecentCoherent

theorem diskSegment_congr (h : f'.disk = f.disk) (index offset length : ℕ) :
    f'.diskSegment index offset length = f.diskSegment index offset length := by
  rw [diskSegment, h, diskSegment]

theorem Reading.refl (f : BlockFiles) : Reading f f :=
  ⟨rfl, fun _ _ _ h => Or.inl h, id⟩

theorem Reading.trans {f₁ f₂ f₃ : BlockFiles} (h : Reading f₁ f₂) (h' : Reading f₂ f₃) :
    Reading f₁ f₃ := by
  refine ⟨h'.disk.trans h.disk, fun index offset g hg => ?_, h'.recent ∘ h.recent⟩
  rcases h'.segments index offset g hg with hg | ⟨length, hg⟩
  · exact h.segments index offset g hg
  · exact Or.inr ⟨length, by rw [← hg, diskSegment_congr h.disk]⟩

/-- Reading a recent block gives what its file holds. -/
theorem readRecent_spec (hf : f.RecentCoherent) (height : ℕ) (blockId : Digest) :
    Exec.wp (readRecent height blockId)
      (fun data f' => Reading f f' ∧ f.disk.lookup (.recent height blockId) = some data)
      (fun e f' => f' = f ∧ e = .key ∧ f.disk.lookup (.recent height blockId) = none) f := by
  simp only [readRecent, Exec.wp_bind, Exec.wp_get]
  cases hc : f.recentCache.lookup (.recent height blockId) with
  | some data =>
    simp only [Exec.wp_bind, Exec.wp_set, Exec.wp_pure]
    have hd := hf.agree _ _ hc
    have hput : ∀ n d, (Table.put (.recent height blockId) data f.recentCache).lookup n = some d →
        f.recentCache.lookup n = some d := by
      intro n d h
      rw [Table.lookup_put] at h
      split at h
      · rename_i hn
        rw [hn, hc, h]
      · exact h
    refine ⟨⟨rfl, fun _ _ _ h => Or.inl h, fun _ =>
      ⟨fun n d h => hf.recent n d (hput n d h), fun n d h => hf.agree n d (hput n d h), ?_⟩⟩, hd⟩
    · change f.recentCacheBytes = (Table.put _ data f.recentCache).total _
      have ht := Table.total_put (f := fun (_ : FileName) (d : Bytes) => d.length) hc data
      rw [hf.sized]
      omega
  | none =>
    simp only [Exec.wp_bind, read, Exec.wp_get]
    cases hd : f.disk.lookup (.recent height blockId) with
    | none => exact Exec.wp_throw.2 ⟨rfl, rfl, rfl⟩
    | some data =>
      simp only [Exec.wp_pure]
      refine (cachePut_spec hf.sized _ data).mono ?_ fun _ _ h => h.elim
      rintro _ f' ⟨h1, h2, h3, h4⟩
      refine ⟨⟨h1, fun _ _ _ h => Or.inl (h2 ▸ h), fun _ =>
        ⟨fun n d h => ?_, fun n d h => ?_, h3⟩⟩, trivial⟩
      · rcases h4 n d h with ⟨rfl, -⟩ | ⟨-, h⟩
        · exact ⟨_, _, rfl⟩
        · exact hf.recent _ _ h
      · rw [h1]
        rcases h4 n d h with ⟨rfl, rfl⟩ | ⟨-, h⟩
        · exact hd
        · exact hf.agree _ _ h

/-- Reading a segment gives what is cached, and otherwise what the file
holds. -/
theorem readSegment_spec (location : ChunkLocation) :
    Exec.wp (readSegment location)
      (fun g f' => Reading f f' ∧
        (f.segments.lookup (location.chunk, location.segmentOffset) = some g ∨
          f.segments.lookup (location.chunk, location.segmentOffset) = none ∧
            f.diskSegment location.chunk location.segmentOffset location.segmentLength = .ok g))
      (fun e f' => f' = f ∧ f.segments.lookup (location.chunk, location.segmentOffset) = none ∧
        f.diskSegment location.chunk location.segmentOffset location.segmentLength = .error e) f := by
  simp only [readSegment, Exec.wp_bind, Exec.wp_get]
  cases hc : f.segments.lookup (location.chunk, location.segmentOffset) with
  | some g =>
    simp only [Exec.wp_bind, Exec.wp_set, Exec.wp_pure]
    refine ⟨⟨rfl, fun index offset g' h => Or.inl ?_, fun h => h.of_eq rfl rfl rfl⟩, Or.inl trivial⟩
    change (Table.put _ g f.segments).lookup (index, offset) = some g' at h
    rw [Table.lookup_put] at h
    split at h
    · rename_i hk
      rw [hk, hc, h]
    · exact h
  | none =>
    simp only [Exec.wp_bind, read, Exec.wp_get]
    cases hd : f.disk.lookup (.chunk location.chunk) with
    | none => exact Exec.wp_throw.2 ⟨rfl, trivial, by rw [diskSegment, hd]⟩
    | some data =>
      simp only [Exec.wp_pure, Exec.wp_lift, Exec.wp_modify]
      constructor
      · intro g hg
        have hdg : f.diskSegment location.chunk location.segmentOffset location.segmentLength =
            .ok g := by rw [diskSegment, hd]; exact hg
        refine ⟨⟨rfl, fun index offset g' h => ?_, fun h => h.of_eq rfl rfl rfl⟩, Or.inr ⟨trivial, hdg⟩⟩
        rcases lookup_segmentsPut h with ⟨he, rfl⟩ | h
        · obtain ⟨rfl, rfl⟩ := Prod.mk.inj he
          exact Or.inr ⟨_, hdg⟩
        · exact Or.inl h
      · intro e he
        exact ⟨trivial, trivial, by rw [diskSegment, hd]; exact he⟩

/-- Whatever the caches hold, a read of a chunk is a read. -/
theorem readFromChunk_reading (location : ChunkLocation) :
    Exec.wp (readFromChunk location) (fun _ f' => Reading f f') (fun _ f' => Reading f f') f := by
  simp only [readFromChunk, Exec.wp_bind]
  refine (readSegment_spec location).mono ?_ fun _ _ h => h.1 ▸ Reading.refl f
  rintro g f' ⟨hr, -⟩
  cases g[location.position]? with
  | none => exact Exec.wp_throw.2 hr
  | some b => exact Exec.wp_pure.2 hr

theorem readRecent_reading (hf : f.RecentCoherent) (height : ℕ) (blockId : Digest) :
    Exec.wp (readRecent height blockId) (fun _ f' => Reading f f') (fun _ f' => Reading f f') f :=
  (readRecent_spec hf height blockId).mono (fun _ _ h => h.1) fun _ _ h => h.1 ▸ Reading.refl f

end BlockFiles

end TalCash
