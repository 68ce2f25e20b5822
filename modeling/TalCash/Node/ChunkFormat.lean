import TalCash.Core.Canonical
import TalCash.Node.ChunkLayout
/-!
# The format of chunk files

What a chunk file is, byte by byte (`ChunkFormat`), and that the reader
accepts exactly the files of that format (`decodeChunk_ok_iff`), whatever
zlib makes of the segments. What the writer produces is of the format, so
that it is read back.
-/

namespace TalCash

open BigEndian

section

variable [Library]

/-! ## Segments -/

omit [Library] in
theorem length_frames_eq (blocks : List Bytes) :
    (frames blocks).length = (blocks.map fun b => b.length + 4).sum := by
  induction blocks with
  | nil => rfl
  | cons b blocks ih =>
    have hf : frames (b :: blocks) = (beBytes 4 b.length ++ b) ++ frames blocks := rfl
    rw [hf, List.length_append, List.length_append, length_beBytes, ih, List.map_cons,
      List.sum_cons]
    omega

omit [Library] in
theorem frames_of_splitSegment : ∀ {room : ℕ} {raw : Bytes} {blocks : List Bytes},
    splitSegment room raw = .ok blocks → raw = frames blocks
  | room, [], blocks, h => by
    have hb : blocks = [] := by
      cases room <;> exact (Except.ok.inj h).symm
    rw [hb]
    rfl
  | 0, _ :: _, _, h => by cases h
  | room + 1, x :: xs, blocks, h => by
    rw [splitSegment] at h
    split at h
    · cases h
    · dsimp only at h
      split at h
      · cases h
      · rename_i h4 hlen
        split at h
        · cases h
        · rename_i rest hrest
          have hrest' := frames_of_splitSegment hrest
          cases h
          generalize hraw : x :: xs = raw at *
          generalize hn : beNat (raw.take 4) = n at *
          have htake : (raw.take 4).length = 4 := List.length_take_of_le (by omega)
          have hhead : raw.take 4 = beBytes 4 (slice raw 4 n).length := by
            have hsize : (slice raw 4 n).length = n := by
              rw [slice, List.length_take, List.length_drop]
              omega
            rw [hsize, ← hn, ← beBytes_beNat (raw.take 4), htake, beNat_beBytes]
            exact lt_of_lt_of_eq (beNat_lt _) (congrArg (256 ^ ·) htake)
          have hf : frames (slice raw 4 n :: rest) =
              (beBytes 4 (slice raw 4 n).length ++ slice raw 4 n) ++ frames rest := rfl
          rw [hf, ← hhead, ← hrest', slice, ← List.take_add, List.take_append_drop]

omit [Library] in
/-- **The records of a segment are framed in one way.** -/
theorem splitSegment_ok_iff {room : ℕ} {raw : Bytes} {blocks : List Bytes} :
    splitSegment room raw = .ok blocks ↔
      raw = frames blocks ∧ Packable blocks ∧ blocks.length ≤ room := by
  constructor
  · intro h
    exact ⟨frames_of_splitSegment h, splitSegment_ok h⟩
  · rintro ⟨rfl, hp, hl⟩
    exact splitSegment_frames hp room hl

/-- **What a segment unpacks to within a budget.** -/
theorem unpackSegment_ok_iff {data : Bytes} {m : ℕ} {g : List Bytes} :
    unpackSegment data m = .ok g ↔ (inflate data).ending = .complete ∧
      (inflate data).raw.length ≤ min m MAX_SEGMENT_BYTES ∧
      splitSegment SEGMENT_BLOCKS (inflate data).raw = .ok g := by
  unfold unpackSegment
  dsimp only
  constructor
  · intro h
    split_ifs at h with h1 h2 h3 h4
    have hlen : (inflate data).raw.length < min m MAX_SEGMENT_BYTES + 1 := by
      by_contra hge
      rw [List.length_take, min_eq_left (not_lt.1 hge)] at h2 h3
      omega
    rw [List.take_of_length_le (by omega)] at h
    exact ⟨not_not.1 h4, by omega, h⟩
  · rintro ⟨hc, hlen, hs⟩
    rw [List.take_of_length_le (by omega), if_neg (fun h => by rw [hc] at h; cases h.1),
      if_neg (by omega), if_neg (by omega), if_neg (fun h => h hc)]
    exact hs

/-- Within a budget a segment unpacks to what it unpacks to without one,
if that fits. -/
theorem unpackSegment_budget {data : Bytes} {m : ℕ} {g : List Bytes} :
    unpackSegment data m = .ok g ↔
      unpackSegment data = .ok g ∧ (g.map fun b => b.length + 4).sum ≤ m := by
  rw [unpackSegment_ok_iff, unpackSegment_ok_iff, ← length_frames_eq]
  constructor
  · rintro ⟨hc, hlen, hs⟩
    rw [← frames_of_splitSegment hs]
    exact ⟨⟨hc, by omega, hs⟩, by omega⟩
  · rintro ⟨⟨hc, hlen, hs⟩, hm⟩
    rw [← frames_of_splitSegment hs] at hm
    exact ⟨hc, by omega, hs⟩

/-! ## Exceptions -/

omit [Library] in
/-- The exception is a `ChunkError` (`ChunkTooLarge` is one). -/
def PyError.IsChunkError (e : PyError) : Prop :=
  (∃ detail, e = .chunk detail) ∨ ∃ detail, e = .chunkTooLarge detail

omit [Library] in
/-- What the `try` of `decode_chunk` can raise. -/
def PyError.IsUnreadable (e : PyError) : Prop :=
  e.IsDecode ∨ (∃ detail, e = .zlib detail) ∨ e.IsChunkError

omit [Library] in
theorem PyError.IsUnreadable.asChunkError {e : PyError} (h : e.IsUnreadable) :
    e.asChunkError.IsChunkError := by
  rcases h with ⟨d, rfl⟩ | ⟨d, rfl⟩ | ⟨d, rfl⟩ | ⟨d, rfl⟩
  · exact Or.inl ⟨_, rfl⟩
  · exact Or.inl ⟨_, rfl⟩
  · exact Or.inl ⟨_, rfl⟩
  · exact Or.inr ⟨_, rfl⟩

omit [Library] in
theorem isUnreadable_zlib (detail : String) : PyError.IsUnreadable (.zlib detail) :=
  Or.inr (Or.inl ⟨_, rfl⟩)

omit [Library] in
theorem isUnreadable_chunk (detail : String) : PyError.IsUnreadable (.chunk detail) :=
  Or.inr (Or.inr (Or.inl ⟨_, rfl⟩))

/-! ## The head and the table -/

namespace ChunkHead

omit [Library] in
/-- The fields fit their widths. -/
structure Fits (head : ChunkHead) : Prop where
  networkId : head.networkId < 256 ^ 1
  index : head.index < 256 ^ 4
  firstHeight : head.firstHeight < 256 ^ 8
  count : head.count < 256 ^ 4
  segmentCount : head.segmentCount < 256 ^ 4

end ChunkHead

omit [Library] in
theorem takes_chunkHead : Takes readChunkHead fun head b =>
    head.Fits ∧ ∃ magic : Bytes, magic.length = MAGIC.length ∧
      b = magic ++ (headBytes head).drop MAGIC.length := by
  refine (Takes.fixed 8).bind fun magic b₀ h₀ => (Takes.uint 1).bind fun networkId b₁ h₁ =>
    (Takes.uint 4).bind fun index b₂ h₂ => (Takes.uint 8).bind fun firstHeight b₃ h₃ =>
    (Takes.uint 4).bind fun count b₄ h₄ => (Takes.fixed 32).bind fun root b₅ h₅ =>
    (Takes.uint 4).bind fun segmentCount b₆ h₆ => Takes.pure ⟨?_, magic.1, ?_, ?_⟩
  · exact ⟨networkId.2, index.2, firstHeight.2, count.2, segmentCount.2⟩
  · rw [length_MAGIC]
    exact magic.2
  · rw [headBytes, List.drop_left' rfl]
    simp only [h₀, h₁, h₂, h₃, h₄, h₅, h₆, List.append_nil]

omit [Library] in
theorem takes_tableRow : Takes readTableRow fun r b => b = rowBytes r ∧ r.1 < 256 ^ 8 ∧ r.2 < 256 ^ 4 := by
  refine (Takes.uint 8).bind fun offset b₁ h₁ => (Takes.uint 4).bind fun length b₂ h₂ =>
    Takes.pure ⟨?_, offset.2, length.2⟩
  simp only [h₁, h₂, List.append_nil, rowBytes]

omit [Library] in
theorem takes_table : ∀ n : ℕ, Takes (Reader.many readTableRow n) fun table b =>
    b = table.1.flatMap rowBytes ∧ ∀ r ∈ table.1, r.1 < 256 ^ 8 ∧ r.2 < 256 ^ 4
  | 0 => Takes.pure ⟨rfl, fun _ h => absurd h List.not_mem_nil⟩
  | n + 1 => by
    refine takes_tableRow.bind fun r b hr => (takes_table n).bind fun l c hl => Takes.pure ?_
    refine ⟨by rw [hr.1, hl.1, List.append_nil, List.flatMap_cons], fun r' hr' => ?_⟩
    rcases List.mem_cons.1 hr' with rfl | hr'
    · exact hr.2
    · exact hl.2 r' hr'

omit [Library] in
/-- What `readSegmentTable` accepts of a body. -/
structure TableRead (body : Bytes) (maxBlocks : Option ℕ) (head : ChunkHead)
    (table : List (ℕ × ℕ)) (rest : Bytes) : Prop where
  fits : head.Fits
  rows_lt : ∀ r ∈ table, r.1 < 256 ^ 8 ∧ r.2 < 256 ^ 4
  length_eq : table.length = head.segmentCount
  body_eq : body = headBytes head ++ (table.flatMap rowBytes ++ rest)
  head_ok : checkChunkHead body.length maxBlocks head = .ok ()
  table_ok : checkChunkTable body.length table = .ok ()

omit [Library] in
theorem checkChunkHead_ok_iff {bodyLength : ℕ} {maxBlocks : Option ℕ} {head : ChunkHead} :
    checkChunkHead bodyLength maxBlocks head = .ok () ↔
      head.count ≠ 0 ∧ (∀ most ∈ maxBlocks, head.count ≤ most) ∧
        head.segmentCount = (head.count + SEGMENT_BLOCKS - 1) / SEGMENT_BLOCKS ∧
        HEADER_BYTES + 12 * head.segmentCount ≤ bodyLength := by
  have hany : (maxBlocks.any fun most => most < head.count) = false ↔
      ∀ most ∈ maxBlocks, head.count ≤ most := by
    cases maxBlocks with
    | none => simp
    | some most => simp
  rw [← hany]
  unfold checkChunkHead
  constructor
  · intro h
    split_ifs at h with h1 h2 h3
    rw [not_or, Bool.not_eq_true] at h1
    exact ⟨h1.1, h1.2, not_not.1 h2, not_lt.1 h3⟩
  · rintro ⟨h1, h2, h3, h4⟩
    rw [if_neg (fun h => h.elim h1 fun h => by rw [h2] at h; cases h), if_neg (not_not.2 h3),
      if_neg (not_lt.2 h4)]

omit [Library] in
theorem raises_checkChunkHead (bodyLength : ℕ) (maxBlocks : Option ℕ) (head : ChunkHead) :
    Raises PyError.IsUnreadable (checkChunkHead bodyLength maxBlocks head) := by
  intro e he
  unfold checkChunkHead at he
  split_ifs at he
  · rw [← Except.error.inj he]; exact isUnreadable_chunk _
  · rw [← Except.error.inj he]; exact isUnreadable_chunk _
  · rw [← Except.error.inj he]; exact isUnreadable_chunk _

omit [Library] in
theorem raises_checkLayout (bodyLength : ℕ) : ∀ (table : List (ℕ × ℕ)) (offset : ℕ),
    Raises PyError.IsUnreadable (checkLayout bodyLength offset table)
  | [], _ => .ok _
  | (o, n) :: rest, offset => by
    rw [checkLayout]
    refine .ite (fun _ e he => ?_) fun _ => raises_checkLayout bodyLength rest _
    rw [← Except.error.inj he]
    exact isUnreadable_chunk _

omit [Library] in
theorem raises_checkChunkTable (bodyLength : ℕ) (table : List (ℕ × ℕ)) :
    Raises PyError.IsUnreadable (checkChunkTable bodyLength table) := by
  refine (raises_checkLayout bodyLength table _).bind fun endOffset _ => .ite (fun _ e he => ?_)
    fun _ => .ok ()
  rw [← Except.error.inj he]
  exact isUnreadable_chunk _

omit [Library] in
/-- The reads before the segments, and what they raise. -/
theorem wp_readSegmentTable {body : Bytes} (hmagic : MAGIC <+: body) (maxBlocks : Option ℕ) :
    Exec.wp (readSegmentTable body maxBlocks)
      (fun r _ => ∃ rest, TableRead body maxBlocks r.1 r.2 rest)
      (fun e _ => e.IsUnreadable) ⟨0, body⟩ := by
  unfold readSegmentTable
  rw [Exec.wp_bind]
  refine (takes_chunkHead _).mono ?_ fun _ _ he => Or.inl he
  rintro head s₁ ⟨b₁, hs₁, hfits, magic, hlen, hb₁⟩
  rw [Exec.wp_bind, Exec.wp_lift]
  refine ⟨fun _ hhead => ?_, fun e he => raises_checkChunkHead _ _ _ e he⟩
  rw [Exec.wp_bind]
  refine (takes_table _ s₁).mono ?_ fun _ _ he => Or.inl he
  rintro table s₂ ⟨b₂, hs₂, hb₂, hrows⟩
  rw [Exec.wp_bind, Exec.wp_lift]
  refine ⟨fun _ htable => ?_, fun e he => raises_checkChunkTable _ _ e he⟩
  rw [Exec.wp_pure]
  refine ⟨s₂.remaining, hfits, hrows, table.2, ?_, hhead, htable⟩
  -- The first bytes read are the magic ones.
  have hsame : magic = MAGIC := by
    obtain ⟨tail, ht⟩ := hmagic
    have h := (ht.trans hs₁).symm
    rw [hb₁, List.append_assoc] at h
    exact (List.append_inj h hlen).1
  have hhb : b₁ = headBytes head := by
    rw [hb₁, hsame, headBytes, List.drop_left' rfl]
  have hbody : body = b₁ ++ s₁.remaining := hs₁
  rw [hbody, hs₂, hhb, hb₂]

/-! ## The segments -/

omit [Library] in
/-- Rows that pass the layout check are those of segments that follow each
other in the body. -/
theorem segments_of_checkLayout {body : Bytes} : ∀ {table : List (ℕ × ℕ)} {offset endOffset : ℕ},
    checkLayout body.length offset table = .ok endOffset →
      ∃ segments, table = rowsFrom offset segments ∧ (∀ s ∈ segments, s ≠ []) ∧
        body.drop offset = segments.flatten ++ body.drop endOffset
  | [], offset, endOffset, h => by
    rw [← Except.ok.inj h]
    exact ⟨[], rfl, fun _ h => absurd h List.not_mem_nil, rfl⟩
  | (o, n) :: rest, offset, endOffset, h => by
    rw [checkLayout] at h
    split at h
    · cases h
    · rename_i hc
      obtain ⟨segments, hrest, hne, hdrop⟩ := segments_of_checkLayout h
      have hlen : (slice body offset n).length = n := by
        rw [slice, List.length_take, List.length_drop]
        omega
      have ho : o = offset := by omega
      refine ⟨slice body offset n :: segments, ?_, fun s hs => ?_, ?_⟩
      · rw [rowsFrom, hlen, hrest, ho]
      · rcases List.mem_cons.1 hs with rfl | hs
        · intro hnil
          rw [hnil, List.length_nil] at hlen
          omega
        · exact hne s hs
      · rw [List.flatten_cons, List.append_assoc, ← hdrop, slice, ← List.drop_drop,
          List.take_append_drop]

omit [Library] in
/-- The rest of a body that was read is its segments. -/
theorem TableRead.segments {body rest : Bytes} {maxBlocks : Option ℕ} {head : ChunkHead}
    {table : List (ℕ × ℕ)} (h : TableRead body maxBlocks head table rest) :
    ∃ segments, table = rowsFrom (HEADER_BYTES + 12 * segments.length) segments ∧
      (∀ s ∈ segments, s ≠ []) ∧ rest = segments.flatten := by
  obtain ⟨endOffset, hlayout, hend⟩ := bind_eq_ok.1 h.table_ok
  have hfull : endOffset = body.length := by
    by_contra hne
    rw [if_pos hne] at hend
    cases hend
  obtain ⟨segments, htable, hne, hdrop⟩ := segments_of_checkLayout hlayout
  have hlen : table.length = segments.length := by rw [htable, length_rowsFrom]
  have hstart : (headBytes head ++ table.flatMap rowBytes).length =
      HEADER_BYTES + 12 * table.length := by
    rw [List.length_append, length_headBytes, length_rows_flatMap]
  refine ⟨segments, by rw [← hlen]; exact htable, hne, ?_⟩
  rw [hfull, List.drop_length, List.append_nil, h.body_eq, ← List.append_assoc, ← hstart,
    List.drop_left' rfl] at hdrop
  exact hdrop

omit [Library] in
/-- Every segment is full but for the last: as many blocks as are left, and
at most 64. -/
def FullSegments : (remaining : ℕ) → List (List Bytes × Bytes) → Prop
  | _, [] => True
  | remaining, p :: rest =>
    p.1.length = min SEGMENT_BLOCKS remaining ∧ FullSegments (remaining - p.1.length) rest

omit [Library] in
/-- The size of blocks once decoded: four bytes more for each. -/
def decodedSize (blocks : List Bytes) : ℕ := (blocks.map fun b => b.length + 4).sum

omit [Library] in
/-- `remaining`, in the segment loop of `decode_chunk`. -/
def remainingBytes (maxDecodedBytes : Option ℕ) (decodedBytes : ℕ) : ℕ :=
  match maxDecodedBytes with
  | none => MAX_SEGMENT_BYTES
  | some most => most - decodedBytes

/-- A segment within what is left of the budget. -/
theorem unpackSegment_remaining {data : Bytes} {most : Option ℕ} {decoded : ℕ} {g : List Bytes}
    (hd : ∀ m ∈ most, decoded ≤ m) :
    unpackSegment data (remainingBytes most decoded) = .ok g ↔
      unpackSegment data = .ok g ∧ ∀ m ∈ most, decoded + decodedSize g ≤ m := by
  cases most with
  | none => exact ⟨fun h => ⟨h, fun m hm => by cases hm⟩, fun h => h.1⟩
  | some m =>
    have hle : decoded ≤ m := hd m rfl
    rw [remainingBytes, unpackSegment_budget]
    refine and_congr_right fun _ => ⟨fun hs m' hm' => ?_, fun hs => ?_⟩
    · have hm : m = m' := Option.some.inj hm'
      have hsum : decodedSize g ≤ m - decoded := hs
      omega
    · have hsum : decoded + decodedSize g ≤ m := hs m rfl
      change decodedSize g ≤ m - decoded
      omega

/-- **What the segment loop reads**: each segment unpacks, is full but for
the last, and all fit the budget. -/
theorem readSegments_ok_iff {body : Bytes} {index count : ℕ} {most : Option ℕ} :
    ∀ {segments : List Bytes} {offset : ℕ} {tail : Bytes} {decoded n : ℕ}
      {found : List (Bytes × ChunkLocation)},
      body.drop offset = segments.flatten ++ tail → (∀ m ∈ most, decoded ≤ m) →
      (readSegments body index count most decoded n (rowsFrom offset segments) = .ok found ↔
        ∃ parts : List (List Bytes × Bytes), parts.map Prod.snd = segments ∧
          (∀ p ∈ parts, unpackSegment p.2 = .ok p.1) ∧ FullSegments (count - n) parts ∧
          (∀ m ∈ most, decoded + decodedSize (parts.flatMap Prod.fst) ≤ m) ∧
          found = (parts.flatMap Prod.fst).zip (locationsFrom index offset parts))
  | [], offset, tail, decoded, n, found, hd, hdec => by
    rw [rowsFrom, readSegments]
    constructor
    · intro h
      refine ⟨[], rfl, fun p hp => absurd hp List.not_mem_nil, trivial, hdec, ?_⟩
      exact (Except.ok.inj h).symm
    · rintro ⟨parts, hparts, -, -, -, rfl⟩
      rw [List.map_eq_nil_iff.1 hparts]
      rfl
  | s :: segments, offset, tail, decoded, n, found, hd, hdec => by
    rw [List.flatten_cons, List.append_assoc] at hd
    have hslice : slice body offset s.length = s := by rw [slice, hd, List.take_left' rfl]
    have hnext : body.drop (offset + s.length) = segments.flatten ++ tail := by
      rw [← List.drop_drop, hd, List.drop_left' rfl]
    have hlocs : ∀ g : List Bytes,
        (segmentLocations index offset s.length g.length).length = g.length := fun g => by
      rw [segmentLocations, List.length_map, List.length_range]
    rw [rowsFrom]
    unfold readSegments
    rw [bind_eq_ok]
    rw [hslice]
    constructor
    · rintro ⟨g, hgroup, h⟩
      obtain ⟨hg, hbudget⟩ := (unpackSegment_remaining hdec).1 hgroup
      split at h
      · cases h
      · rename_i hlen
        obtain ⟨others, hothers, h⟩ := bind_eq_ok.1 h
        obtain ⟨parts, hparts, hunpack, hfull, htotal, rfl⟩ :=
          (readSegments_ok_iff hnext hbudget).1 hothers
        refine ⟨(g, s) :: parts, by rw [List.map_cons, hparts], fun p hp => ?_, ?_, fun m hm => ?_,
          ?_⟩
        · rcases List.mem_cons.1 hp with rfl | hp
          · exact hg
          · exact hunpack p hp
        · refine ⟨not_not.1 hlen, ?_⟩
          rw [Nat.sub_sub]
          exact hfull
        · have hsum := htotal m hm
          simp only [decodedSize, List.flatMap_cons, List.map_append, List.sum_append] at hsum ⊢
          omega
        · rw [← Except.ok.inj h, List.flatMap_cons, locationsFrom,
            List.zip_append (hlocs g).symm]
    · rintro ⟨parts, hparts, hunpack, hfull, htotal, rfl⟩
      obtain ⟨⟨g, s'⟩, parts, rfl⟩ : ∃ p ps, parts = p :: ps := by
        cases parts with
        | nil => cases hparts
        | cons p ps => exact ⟨p, ps, rfl⟩
      rw [List.map_cons, List.cons.injEq] at hparts
      obtain ⟨rfl, hparts⟩ := hparts
      have hbudget : ∀ m ∈ most, decoded + decodedSize g ≤ m := fun m hm => by
        have hsum := htotal m hm
        simp only [decodedSize, List.flatMap_cons, List.map_append, List.sum_append] at hsum ⊢
        omega
      refine ⟨g, (unpackSegment_remaining hdec).2 ⟨hunpack _ List.mem_cons_self, hbudget⟩, ?_⟩
      rw [if_neg (not_not.2 hfull.1), bind_eq_ok]
      refine ⟨_, (readSegments_ok_iff hnext hbudget).2 ⟨parts, hparts,
        fun p hp => hunpack p (List.mem_cons_of_mem _ hp), ?_, fun m hm => ?_, rfl⟩, ?_⟩
      · rw [← Nat.sub_sub]
        exact hfull.2
      · have hsum := htotal m hm
        simp only [decodedSize, List.flatMap_cons, List.map_append, List.sum_append] at hsum ⊢
        omega
      · rw [List.flatMap_cons, locationsFrom, List.zip_append (hlocs g).symm]
        rfl

omit [Library] in
theorem raises_splitSegment : ∀ (room : ℕ) (raw : Bytes),
    Raises PyError.IsUnreadable (splitSegment room raw)
  | room, [] => by
    cases room <;> exact .ok _
  | 0, _ :: _ => fun e he => by
    rw [← Except.error.inj he]
    exact isUnreadable_zlib _
  | room + 1, x :: xs => by
    rw [splitSegment]
    refine .ite (fun _ e he => ?_) fun _ => .ite (fun _ e he => ?_) fun _ => ?_
    · rw [← Except.error.inj he]
      exact isUnreadable_zlib _
    · rw [← Except.error.inj he]
      exact isUnreadable_zlib _
    · split
      · rename_i e he
        exact (raises_splitSegment room _).error he
      · exact .ok _

theorem raises_unpackSegment (data : Bytes) (m : ℕ) :
    Raises PyError.IsUnreadable (unpackSegment data m) := by
  unfold unpackSegment
  refine .ite (fun _ e he => ?_) fun _ => .ite (fun _ e he => ?_) fun _ =>
    .ite (fun _ e he => ?_) fun _ => .ite (fun _ e he => ?_) fun _ => raises_splitSegment _ _
  · rw [← Except.error.inj he]
    exact isUnreadable_zlib _
  · rw [← Except.error.inj he]
    exact isUnreadable_zlib _
  · rw [← Except.error.inj he]
    exact Or.inr (Or.inr (Or.inr ⟨_, rfl⟩))
  · rw [← Except.error.inj he]
    exact isUnreadable_zlib _

theorem raises_readSegments (body : Bytes) (index count : ℕ) (most : Option ℕ) :
    ∀ (table : List (ℕ × ℕ)) (decoded n : ℕ),
      Raises PyError.IsUnreadable (readSegments body index count most decoded n table)
  | [], _, _ => .ok _
  | (offset, length) :: rest, decoded, n => by
    unfold readSegments
    refine (raises_unpackSegment _ _).bind fun group _ => .ite (fun _ e he => ?_) fun _ =>
      (raises_readSegments body index count most rest _ _).bind fun _ _ => .ok _
    rw [← Except.error.inj he]
    exact isUnreadable_chunk _

/-! ## The chain of the blocks -/

/-- Blocks with consecutive heights, each naming the one before it. -/
def FormsChain (firstHeight : ℕ) (blocks : List Bytes) : Prop :=
  ∀ i b, blocks[i]? = some b → ∃ header, headerFromBytes (b.take HEADER_SIZE) = .ok header ∧
    header.height = firstHeight + i ∧
    ∀ previous, 0 < i → blocks[i - 1]? = some previous → header.prevId = blockIdOf previous

theorem blockId_of_headerFromBytes {b : Bytes} {header : BlockHeader}
    (h : headerFromBytes (b.take HEADER_SIZE) = .ok header) : header.blockId = blockIdOf b := by
  rw [BlockHeader.blockId, ← headerFromBytes_ok_iff.1 h, blockIdOf]

theorem checkChain_cons_iff {height : ℕ} {previousId : Option Digest} {b : Bytes}
    {rest : List Bytes} :
    checkChain height previousId (b :: rest) = .ok () ↔
      ∃ header, headerFromBytes (b.take HEADER_SIZE) = .ok header ∧ header.height = height ∧
        (∀ id ∈ previousId, header.prevId = id) ∧
        checkChain (height + 1) (some (blockIdOf b)) rest = .ok () := by
  have hany : ∀ header : BlockHeader, (previousId.any fun id => id ≠ header.prevId) = false ↔
      ∀ id ∈ previousId, header.prevId = id := fun header => by
    cases previousId with
    | none => simp
    | some id =>
      simp only [Option.any_some, decide_eq_false_iff_not, ne_eq, not_not, Option.mem_def,
        Option.some.injEq, forall_eq']
      exact eq_comm
  rw [checkChain]
  cases hh : headerFromBytes (b.take HEADER_SIZE) with
  | error e =>
    constructor
    · intro h
      cases h
    · rintro ⟨_, h, -⟩
      cases h
  | ok header =>
    dsimp only
    rw [blockId_of_headerFromBytes hh]
    constructor
    · intro h
      split_ifs at h with hc
      rw [not_or, not_not, Bool.not_eq_true] at hc
      exact ⟨header, rfl, hc.1, (hany header).1 hc.2, h⟩
    · rintro ⟨header', he, hheight, hprev, h⟩
      rw [← Except.ok.inj he] at hheight hprev
      rw [if_neg]
      · exact h
      · rw [not_or, not_not, Bool.not_eq_true]
        exact ⟨hheight, (hany header).2 hprev⟩

/-- The blocks pass the last loop where they form a chain on top of the
previous one. -/
theorem checkChain_ok_iff : ∀ {blocks : List Bytes} {height : ℕ} {previousId : Option Digest},
    checkChain height previousId blocks = .ok () ↔ FormsChain height blocks ∧
      ∀ id ∈ previousId, ∀ b, blocks[0]? = some b →
        ∃ header, headerFromBytes (b.take HEADER_SIZE) = .ok header ∧ header.prevId = id
  | [], _, _ => by
    refine ⟨fun _ => ⟨fun i b h => ?_, fun id _ b h => ?_⟩, fun _ => rfl⟩
    · cases h
    · cases h
  | b :: rest, height, previousId => by
    rw [checkChain_cons_iff]
    constructor
    · rintro ⟨header, hh, hheight, hprev, hrest⟩
      obtain ⟨hchain, hlink⟩ := checkChain_ok_iff.1 hrest
      refine ⟨fun i b' hb' => ?_, fun id hid b' hb' => ?_⟩
      · cases i with
        | zero =>
          rw [List.getElem?_cons_zero, Option.some.injEq] at hb'
          subst hb'
          exact ⟨header, hh, hheight, fun _ h => absurd h (lt_irrefl _)⟩
        | succ i =>
          rw [List.getElem?_cons_succ] at hb'
          obtain ⟨header', hh', hheight', hprev'⟩ := hchain i b' hb'
          refine ⟨header', hh', by omega, fun previous _ hp => ?_⟩
          rw [Nat.add_sub_cancel] at hp
          cases i with
          | zero =>
            rw [List.getElem?_cons_zero, Option.some.injEq] at hp
            obtain ⟨header'', hh'', hp''⟩ := hlink _ rfl b' hb'
            rw [hh'] at hh''
            rw [Except.ok.inj hh'', hp'', hp]
          | succ i =>
            rw [List.getElem?_cons_succ] at hp
            exact hprev' previous (Nat.succ_pos _) hp
      · rw [List.getElem?_cons_zero, Option.some.injEq] at hb'
        subst hb'
        exact ⟨header, hh, hprev id hid⟩
    · rintro ⟨hchain, hlink⟩
      obtain ⟨header, hh, hheight, -⟩ := hchain 0 b rfl
      refine ⟨header, hh, hheight, fun id hid => ?_, checkChain_ok_iff.2 ⟨fun i b' hb' => ?_,
        fun id hid b' hb' => ?_⟩⟩
      · obtain ⟨header', hh', hp⟩ := hlink id hid b rfl
        rw [hh] at hh'
        rw [Except.ok.inj hh', hp]
      · obtain ⟨header', hh', hheight', hprev'⟩ := hchain (i + 1) b' hb'
        refine ⟨header', hh', by omega, fun previous hi hp => ?_⟩
        refine hprev' previous (Nat.succ_pos _) ?_
        obtain ⟨j, rfl⟩ : ∃ j, i = j + 1 := ⟨i - 1, by omega⟩
        exact hp
      · obtain ⟨header', hh', -, hprev'⟩ := hchain 1 b' hb'
        exact ⟨header', hh', by rw [hprev' b (by decide) rfl, Option.some.inj hid]⟩

theorem raises_checkChain : ∀ (blocks : List Bytes) (height : ℕ) (previousId : Option Digest),
    Raises PyError.IsChunkError (checkChain height previousId blocks)
  | [], _, _ => .ok _
  | b :: rest, height, previousId => by
    rw [checkChain]
    split
    · intro e he
      exact Or.inl ⟨_, (Except.error.inj he).symm⟩
    · refine .ite (fun _ e he => ?_) fun _ => raises_checkChain rest _ _
      exact Or.inl ⟨_, (Except.error.inj he).symm⟩

/-! ## The format -/

omit [Library] in
/-- The fields before the segment table of a chunk. -/
def ChunkFile.head (chunk : ChunkFile) (segmentCount : ℕ) : ChunkHead :=
  ⟨chunk.networkId, chunk.index, chunk.firstHeight, chunk.blocks.length, chunk.root, segmentCount⟩

/-- The body of a chunk file, of segments and the blocks they unpack to:
the head, the rows of the segments, and the segments one after the other.
Nothing else is in it. -/
structure ChunkFormat (body : Bytes) (chunk : ChunkFile) (parts : List (List Bytes × Bytes)) :
    Prop where
  fits : (chunk.head parts.length).Fits
  rows_lt : ∀ r ∈ rowsFrom (HEADER_BYTES + 12 * parts.length) (parts.map Prod.snd),
    r.1 < 256 ^ 8 ∧ r.2 < 256 ^ 4
  body_eq : body = headBytes (chunk.head parts.length) ++
    ((rowsFrom (HEADER_BYTES + 12 * parts.length) (parts.map Prod.snd)).flatMap rowBytes ++
      (parts.map Prod.snd).flatten)
  segments_ne : ∀ s ∈ parts.map Prod.snd, s ≠ []
  unpacked : ∀ p ∈ parts, unpackSegment p.2 = .ok p.1
  full : FullSegments chunk.blocks.length parts
  count : parts.length = (chunk.blocks.length + SEGMENT_BLOCKS - 1) / SEGMENT_BLOCKS
  blocks_ne : chunk.blocks ≠ []
  blocks_eq : parts.flatMap Prod.fst = chunk.blocks
  locations_eq :
    chunk.locations = locationsFrom chunk.index (HEADER_BYTES + 12 * parts.length) parts
  root : merkleRoot (chunk.blocks.map fun b => (blockIdOf b).1) = .ok chunk.root
  chain : FormsChain chunk.firstHeight chunk.blocks

omit [Library] in
theorem length_locationsFrom (index : ℕ) : ∀ (parts : List (List Bytes × Bytes)) (offset : ℕ),
    (locationsFrom index offset parts).length = (parts.flatMap Prod.fst).length
  | [], _ => rfl
  | (g, s) :: parts, offset => by
    rw [locationsFrom, List.length_append, length_locationsFrom index parts, List.flatMap_cons,
      List.length_append, segmentLocations, List.length_map, List.length_range]

/-- What the reader finds in the body of a file. -/
theorem decodeBody_ok {body : Bytes} (hmagic : MAGIC <+: body) {maxBlocks most : Option ℕ}
    {head : ChunkHead} {found : List (Bytes × ChunkLocation)}
    (h : decodeBody body maxBlocks most = .ok (head, found)) :
    ∃ parts : List (List Bytes × Bytes),
      TableRead body maxBlocks head
        (rowsFrom (HEADER_BYTES + 12 * parts.length) (parts.map Prod.snd))
        (parts.map Prod.snd).flatten ∧
      (∀ s ∈ parts.map Prod.snd, s ≠ []) ∧ (∀ p ∈ parts, unpackSegment p.2 = .ok p.1) ∧
      FullSegments head.count parts ∧
      (∀ m ∈ most, decodedSize (parts.flatMap Prod.fst) ≤ m) ∧
      found.map Prod.fst = parts.flatMap Prod.fst ∧
      found.map Prod.snd = locationsFrom head.index (HEADER_BYTES + 12 * parts.length) parts := by
  obtain ⟨⟨head', table⟩, htable, h⟩ := bind_eq_ok.1 h
  obtain ⟨found', hfound, h⟩ := bind_eq_ok.1 h
  obtain ⟨rfl, rfl⟩ := Prod.mk.inj (Except.ok.inj h)
  obtain ⟨s', hrun⟩ := Exec.outcome_ok_iff.1 htable
  obtain ⟨rest, hread⟩ := (wp_readSegmentTable hmagic maxBlocks).ok hrun
  dsimp only at hread hfound
  obtain ⟨segments, rfl, hne, rfl⟩ := hread.segments
  have hdrop : body.drop (HEADER_BYTES + 12 * segments.length) = segments.flatten ++ [] := by
    have hlen : (headBytes head' ++ (rowsFrom (HEADER_BYTES + 12 * segments.length)
        segments).flatMap rowBytes).length = HEADER_BYTES + 12 * segments.length := by
      rw [List.length_append, length_headBytes, length_rows_flatMap, length_rowsFrom]
    rw [hread.body_eq, ← List.append_assoc, List.drop_left' hlen, List.append_nil]
  obtain ⟨parts, rfl, hunpack, hfull, hbudget, rfl⟩ :=
    (readSegments_ok_iff hdrop fun _ _ => Nat.zero_le _).1 hfound
  rw [List.length_map] at hread hdrop
  have hlocs := (length_locationsFrom head'.index parts (HEADER_BYTES + 12 * parts.length)).symm
  refine ⟨parts, hread, hne, hunpack, hfull, fun m hm => ?_, ?_, ?_⟩
  · have := hbudget m hm
    rwa [Nat.zero_add] at this
  · rw [List.length_map]
    exact List.map_fst_zip (le_of_eq hlocs)
  · rw [List.length_map]
    exact List.map_snd_zip (le_of_eq hlocs.symm)

/-- A body of the format is read. -/
theorem ChunkFormat.decodeBody_eq {body : Bytes} {chunk : ChunkFile}
    {parts : List (List Bytes × Bytes)} (h : ChunkFormat body chunk parts)
    {maxBlocks most : Option ℕ} (hmax : ∀ m ∈ maxBlocks, chunk.blocks.length ≤ m)
    (hmost : ∀ m ∈ most, decodedSize chunk.blocks ≤ m) :
    decodeBody body maxBlocks most =
      .ok (chunk.head parts.length, chunk.blocks.zip chunk.locations) := by
  have hrows : (rowsFrom (HEADER_BYTES + 12 * parts.length) (parts.map Prod.snd)).length =
      parts.length := by rw [length_rowsFrom, List.length_map]
  have hstart : (headBytes (chunk.head parts.length) ++ (rowsFrom (HEADER_BYTES +
      12 * parts.length) (parts.map Prod.snd)).flatMap rowBytes).length =
        HEADER_BYTES + 12 * parts.length := by
    rw [List.length_append, length_headBytes, length_rows_flatMap, hrows]
  have hlen : body.length = HEADER_BYTES + 12 * parts.length + (parts.map Prod.snd).flatten.length := by
    rw [h.body_eq, ← List.append_assoc, List.length_append, hstart]
  have hdrop : body.drop (HEADER_BYTES + 12 * parts.length) =
      (parts.map Prod.snd).flatten ++ [] := by
    rw [h.body_eq, ← List.append_assoc, List.drop_left' hstart, List.append_nil]
  have hhead : checkChunkHead body.length maxBlocks (chunk.head parts.length) = .ok () := by
    refine checkChunkHead_ok_iff.2 ⟨fun h0 => h.blocks_ne (List.length_eq_zero_iff.1 h0), hmax,
      h.count, ?_⟩
    have hcount : (chunk.head parts.length).segmentCount = parts.length := rfl
    rw [hlen, hcount]
    omega
  have htable : checkChunkTable body.length
      (rowsFrom (HEADER_BYTES + 12 * parts.length) (parts.map Prod.snd)) = .ok () := by
    rw [checkChunkTable, hrows, checkLayout_rowsFrom h.segments_ne hlen.ge]
    exact if_neg fun hne => hne hlen.symm
  rw [h.body_eq] at hhead htable
  have hread := readSegmentTable_of (chunk.head parts.length) _ (parts.map Prod.snd).flatten
    maxBlocks (reads_head h.fits.networkId h.fits.index h.fits.firstHeight h.fits.count
      h.fits.segmentCount) h.rows_lt hrows hhead htable
  rw [← h.body_eq] at hread
  refine bind_eq_ok.2 ⟨_, hread, bind_eq_ok.2 ⟨chunk.blocks.zip chunk.locations,
    (readSegments_ok_iff hdrop fun _ _ => Nat.zero_le _).2 ⟨parts, rfl, h.unpacked, h.full,
      fun m hm => ?_, ?_⟩, rfl⟩⟩
  · rw [h.blocks_eq, Nat.zero_add]
    exact hmost m hm
  · rw [h.blocks_eq, h.locations_eq]
    rfl

/-- **The reader accepts exactly the files of the format**, within its two
bounds. -/
theorem decodeChunk_ok_iff {data : Bytes} {maxBlocks most : Option ℕ} {chunk : ChunkFile} :
    decodeChunk data maxBlocks most = .ok chunk ↔
      ∃ body parts, data = body ++ (sha256 body).1 ∧ ChunkFormat body chunk parts ∧
        (∀ m ∈ maxBlocks, chunk.blocks.length ≤ m) ∧ ∀ m ∈ most, decodedSize chunk.blocks ≤ m := by
  constructor
  · intro h
    unfold decodeChunk at h
    dsimp only at h
    split_ifs at h with h1 h2
    rw [not_or, not_not] at h1
    split at h
    · cases h
    · rename_i head found hbody
      split_ifs at h with h3
      obtain ⟨root, hroot, h⟩ := bind_eq_ok.1 h
      split_ifs at h with h4
      obtain ⟨_, hchain, h⟩ := bind_eq_ok.1 h
      have hHB : HEADER_BYTES = 61 := rfl
      have hmagic : MAGIC <+: data.take (data.length - 32) :=
        List.prefix_take_iff.2 ⟨h1.2, by rw [length_MAGIC]; omega⟩
      obtain ⟨parts, hread, hne, hunpack, hfull, hbudget, hblocks, hlocs⟩ :=
        decodeBody_ok hmagic hbody
      rw [not_or, not_not, List.isEmpty_iff] at h3
      rw [not_not] at h2 h4
      subst h4
      rw [hblocks] at h h3 hroot hchain
      rw [hlocs] at h
      obtain ⟨hcount, hmost, hsegments, -⟩ := checkChunkHead_ok_iff.1 hread.head_ok
      have hparts : parts.length = head.segmentCount := by
        rw [← hread.length_eq, length_rowsFrom, List.length_map]
      have hhead : ChunkFile.head chunk parts.length = head := by
        rw [← Except.ok.inj h, hparts, ChunkFile.head]
        dsimp only
        rw [h3.1]
      have hc := (Except.ok.inj h).symm
      refine ⟨data.take (data.length - 32), parts, ?_, ⟨?_, hread.rows_lt, ?_, hne, hunpack, ?_, ?_,
        ?_, ?_, ?_, ?_, ?_⟩, fun m hm => ?_, fun m hm => ?_⟩
      · rw [h2, List.take_append_drop]
      · rw [hhead]
        exact hread.fits
      · rw [hhead]
        exact hread.body_eq
      · rw [hc]
        dsimp only
        rw [h3.1]
        exact hfull
      · rw [hc]
        dsimp only
        rw [h3.1, hparts, hsegments]
      · rw [hc]
        exact h3.2
      · rw [hc]
      · rw [hc]
      · rw [hc]
        exact hroot
      · rw [hc]
        exact (checkChain_ok_iff.1 hchain).1
      · rw [hc]
        dsimp only
        rw [h3.1]
        exact hmost m hm
      · rw [hc]
        exact hbudget m hm
  · rintro ⟨body, parts, rfl, hf, hmost, hbudget⟩
    have hlen : (body ++ (sha256 body).1).length - 32 = body.length := by
      rw [List.length_append, (sha256 body).2, Nat.add_sub_cancel]
    have hbody : HEADER_BYTES ≤ body.length := by
      rw [hf.body_eq, List.length_append, length_headBytes]
      exact Nat.le_add_right _ _
    have hmagic : MAGIC <+: body ++ (sha256 body).1 := by
      rw [hf.body_eq, headBytes]
      simp only [List.append_assoc]
      exact List.prefix_append _ _
    have hlocs : chunk.locations.length = chunk.blocks.length := by
      rw [hf.locations_eq, length_locationsFrom, hf.blocks_eq]
    unfold decodeChunk
    dsimp only
    rw [hlen, List.take_left' rfl, List.drop_left' rfl, if_neg, if_neg (fun h => h rfl),
      hf.decodeBody_eq hmost hbudget]
    · dsimp only
      rw [List.map_fst_zip (le_of_eq hlocs.symm), List.map_snd_zip (le_of_eq hlocs), if_neg]
      · refine bind_eq_ok.2 ⟨chunk.root, hf.root, ?_⟩
        rw [if_neg (fun h => h rfl)]
        refine bind_eq_ok.2 ⟨(), checkChain_ok_iff.2 ⟨hf.chain, fun _ h => ?_⟩, rfl⟩
        cases h
      · rw [not_or, not_not, List.isEmpty_iff]
        exact ⟨rfl, hf.blocks_ne⟩
    · rw [not_or, not_not, not_lt, List.length_append, (sha256 body).2]
      exact ⟨by omega, hmagic⟩

/-! ## What is accepted -/

/-- A location names a segment of a file that unpacks, with the block at
its position. -/
def UnpacksTo (data : Bytes) (index : ℕ) (location : ChunkLocation) (block : Bytes) : Prop :=
  location.chunk = index ∧ ∃ g,
    unpackSegment (slice data location.segmentOffset location.segmentLength) = .ok g ∧
      g[location.position]? = some block

/-- The locations in segments that follow each other in a file. -/
theorem unpacksTo_locationsFrom {data : Bytes} {index : ℕ} :
    ∀ {parts : List (List Bytes × Bytes)} {offset : ℕ} {tail : Bytes},
      data.drop offset = (parts.map Prod.snd).flatten ++ tail →
      (∀ p ∈ parts, unpackSegment p.2 = .ok p.1) →
      List.Forall₂ (UnpacksTo data index) (locationsFrom index offset parts)
        (parts.flatMap Prod.fst)
  | [], _, _, _, _ => .nil
  | (g, s) :: parts, offset, tail, hd, hp => by
    rw [List.map_cons, List.flatten_cons, List.append_assoc] at hd
    have hslice : slice data offset s.length = s := by rw [slice, hd, List.take_left' rfl]
    have hnext : data.drop (offset + s.length) = (parts.map Prod.snd).flatten ++ tail := by
      rw [← List.drop_drop, hd, List.drop_left' rfl]
    rw [locationsFrom, List.flatMap_cons]
    refine List.rel_append ?_ (unpacksTo_locationsFrom hnext fun p hm =>
      hp p (List.mem_cons_of_mem _ hm))
    rw [List.forall₂_iff_get]
    refine ⟨by simp [segmentLocations], fun i h₁ h₂ => ?_⟩
    have hloc : (segmentLocations index offset s.length g.length).get ⟨i, h₁⟩ =
        ⟨index, offset, s.length, i⟩ := by simp [segmentLocations]
    rw [hloc]
    refine ⟨rfl, g, ?_, List.getElem?_eq_getElem h₂⟩
    change unpackSegment (slice data offset s.length) = .ok g
    rw [hslice]
    exact hp _ List.mem_cons_self

/-- A well-formed chunk file: what the reader lets through, in terms of the
bytes of the file. -/
structure WellFormedChunk (data : Bytes) (maxBlocks maxDecodedBytes : Option ℕ)
    (chunk : ChunkFile) (body : Bytes) (segments : List Bytes) : Prop where
  checksum : data = body ++ (sha256 body).1
  fits : (chunk.head segments.length).Fits
  layout : body = headBytes (chunk.head segments.length) ++
    ((rowsFrom (HEADER_BYTES + 12 * segments.length) segments).flatMap rowBytes ++
      segments.flatten)
  rows_lt : ∀ r ∈ rowsFrom (HEADER_BYTES + 12 * segments.length) segments,
    r.1 < 2 ^ 64 ∧ 0 < r.2 ∧ r.2 < 2 ^ 32
  segmentCount : segments.length = (chunk.blocks.length + 63) / 64
  count_pos : 1 ≤ chunk.blocks.length
  count_le : ∀ most ∈ maxBlocks, chunk.blocks.length ≤ most
  sizes : ∀ b ∈ chunk.blocks, 1 ≤ b.length ∧ b.length ≤ 1000000
  decoded_le : ∀ most ∈ maxDecodedBytes, (chunk.blocks.map fun b => b.length + 4).sum ≤ most
  locations : List.Forall₂ (UnpacksTo data chunk.index) chunk.locations chunk.blocks
  root : merkleRoot (chunk.blocks.map fun b => (blockIdOf b).1) = .ok chunk.root
  chain : FormsChain chunk.firstHeight chunk.blocks

namespace ChunkFormat

variable {body : Bytes} {chunk : ChunkFile} {parts : List (List Bytes × Bytes)}

/-- Where the segments of a file start. -/
theorem drop_eq (h : ChunkFormat body chunk parts) (tail : Bytes) :
    (body ++ tail).drop (HEADER_BYTES + 12 * parts.length) =
      (parts.map Prod.snd).flatten ++ tail := by
  have hstart : (headBytes (chunk.head parts.length) ++ (rowsFrom (HEADER_BYTES +
      12 * parts.length) (parts.map Prod.snd)).flatMap rowBytes).length =
        HEADER_BYTES + 12 * parts.length := by
    rw [List.length_append, length_headBytes, length_rows_flatMap, length_rowsFrom, List.length_map]
  rw [h.body_eq, ← List.append_assoc, List.append_assoc, List.drop_left' hstart]

theorem locations (h : ChunkFormat body chunk parts) :
    List.Forall₂ (UnpacksTo (body ++ (sha256 body).1) chunk.index) chunk.locations
      chunk.blocks := by
  rw [h.locations_eq, ← h.blocks_eq]
  exact unpacksTo_locationsFrom (h.drop_eq _) h.unpacked

omit [Library] in
theorem pos_of_mem_rowsFrom : ∀ {segments : List Bytes} {offset : ℕ},
    (∀ s ∈ segments, s ≠ []) → ∀ r ∈ rowsFrom offset segments, 0 < r.2
  | s :: segments, offset, hne, r, hr => by
    rcases List.mem_cons.1 hr with rfl | hr
    · exact List.length_pos_iff.2 (hne s List.mem_cons_self)
    · exact pos_of_mem_rowsFrom (fun s hs => hne s (List.mem_cons_of_mem _ hs)) r hr

theorem wellFormed (h : ChunkFormat body chunk parts) {maxBlocks most : Option ℕ}
    (hmax : ∀ m ∈ maxBlocks, chunk.blocks.length ≤ m)
    (hmost : ∀ m ∈ most, decodedSize chunk.blocks ≤ m) :
    WellFormedChunk (body ++ (sha256 body).1) maxBlocks most chunk body (parts.map Prod.snd) where
  checksum := rfl
  fits := by rw [List.length_map]; exact h.fits
  layout := by rw [List.length_map]; exact h.body_eq
  rows_lt r hr := by
    rw [List.length_map] at hr
    exact ⟨(h.rows_lt r hr).1, pos_of_mem_rowsFrom h.segments_ne r hr, (h.rows_lt r hr).2⟩
  segmentCount := by rw [List.length_map]; exact h.count
  count_pos := List.length_pos_iff.2 h.blocks_ne
  count_le := hmax
  sizes b hb := by
    rw [← h.blocks_eq] at hb
    obtain ⟨p, hp, hb⟩ := List.mem_flatMap.1 hb
    exact (unpackSegment_ok (h.unpacked p hp)).1 b hb
  decoded_le := hmost
  locations := h.locations
  root := h.root
  chain := h.chain

end ChunkFormat

/-- **`decode_chunk` accepts only well-formed chunks.** On every byte
string and within any bounds it raises `ChunkError` and nothing else, or
returns a chunk for which the file is well formed. Nothing is assumed of
zlib. -/
theorem decodeChunk_wellFormed (data : Bytes) (maxBlocks maxDecodedBytes : Option ℕ) :
    Raises PyError.IsChunkError (decodeChunk data maxBlocks maxDecodedBytes) ∧
      ∀ chunk, decodeChunk data maxBlocks maxDecodedBytes = .ok chunk →
        ∃ body segments,
          WellFormedChunk data maxBlocks maxDecodedBytes chunk body segments := by
  constructor
  · have hchunk : ∀ detail, PyError.IsChunkError (.chunk detail) := fun d => Or.inl ⟨d, rfl⟩
    unfold decodeChunk
    refine .ite (fun _ e he => Except.error.inj he ▸ hchunk _) fun h1 =>
      .ite (fun _ e he => Except.error.inj he ▸ hchunk _) fun _ => ?_
    rw [not_or, not_not] at h1
    have hHB : HEADER_BYTES = 61 := rfl
    have hmagic : MAGIC <+: data.take (data.length - 32) :=
      List.prefix_take_iff.2 ⟨h1.2, by rw [length_MAGIC]; omega⟩
    have hbody : Raises PyError.IsUnreadable
        (decodeBody (data.take (data.length - 32)) maxBlocks maxDecodedBytes) := by
      refine Raises.bind (fun e he => ?_) fun _ _ => (raises_readSegments _ _ _ _ _ _ _).bind
        fun _ _ => .ok _
      unfold Exec.outcome at he
      split at he
      · cases he
      · rename_i hrun
        rw [← Except.error.inj he]
        exact (wp_readSegmentTable hmagic maxBlocks).error hrun
    split
    · rename_i e he
      intro e' he'
      rw [← Except.error.inj he']
      exact (hbody e he).asChunkError
    · rename_i head found _
      refine .ite (fun _ e he => Except.error.inj he ▸ hchunk _) fun h3 => ?_
      rw [not_or, List.isEmpty_iff] at h3
      obtain ⟨root, hroot⟩ := merkleRoot_isOk
        (l := (found.map Prod.fst).map fun b => (blockIdOf b).1) fun hnil =>
          h3.2 (List.map_eq_nil_iff.1 hnil)
      rw [hroot]
      refine .ite (fun _ e he => Except.error.inj he ▸ hchunk _) fun _ =>
        (raises_checkChain _ _ _).bind fun _ _ => .ok _
  · intro chunk h
    obtain ⟨body, parts, rfl, hf, hmax, hmost⟩ := decodeChunk_ok_iff.1 h
    exact ⟨body, parts.map Prod.snd, hf.wellFormed hmax hmost⟩

/-! ## What is written -/

omit [Library] in
theorem fullSegments_groupsFrom {f : List Bytes → Bytes} : ∀ (n : ℕ) (blocks : List Bytes),
    FullSegments blocks.length ((groupsFrom n blocks).map fun g => (g, f g))
  | 0, _ => trivial
  | n + 1, blocks => by
    rw [groupsFrom]
    split
    · exact trivial
    · have hdrop := fullSegments_groupsFrom (f := f) n (blocks.drop SEGMENT_BLOCKS)
      rw [List.length_drop] at hdrop
      refine ⟨List.length_take, ?_⟩
      have hrest : blocks.length - (blocks.take SEGMENT_BLOCKS).length =
          blocks.length - SEGMENT_BLOCKS := by
        rw [List.length_take]
        omega
      dsimp only
      rw [hrest]
      exact hdrop

omit [Library] in
/-- The table and the locations that are written, where the offsets and
the lengths fit. -/
theorem layoutSegments_eq {index : ℕ} : ∀ {l : List (List Bytes × Bytes)} {offset : ℕ},
    (∀ r ∈ rowsFrom offset (l.map Prod.snd), r.1 < 256 ^ 8 ∧ r.2 < 256 ^ 4) →
      layoutSegments index offset l =
        .ok ((rowsFrom offset (l.map Prod.snd)).flatMap rowBytes, locationsFrom index offset l)
  | [], _, _ => rfl
  | (g, s) :: rest, offset, h => by
    obtain ⟨ho, hs⟩ := h _ List.mem_cons_self
    have hrest : layoutSegments index (offset + s.length) rest = _ :=
      layoutSegments_eq fun r hr => h r (List.mem_cons_of_mem _ hr)
    exact bind_eq_ok.2 ⟨_, uintBytes_ok_iff.2 ⟨ho, rfl⟩, bind_eq_ok.2
      ⟨_, uintBytes_ok_iff.2 ⟨hs, rfl⟩, bind_eq_ok.2 ⟨_, hrest, rfl⟩⟩⟩

end

section

variable [Packing]

/-- The groups of a chunk's blocks beside the segments they are packed
into. -/
def packedGroups (blocks : List Bytes) : List (List Bytes × Bytes) :=
  (groups blocks).map fun g => (g, deflate (frames g))

/-- **The writer produces the format.** -/
theorem encodeChunk_format {networkId index firstHeight : ℕ} {blocks : List Bytes}
    (hn : networkId < 256 ^ 1) (hi : index < 256 ^ 4) (hf : firstHeight < 256 ^ 8)
    (hc : blocks.length < 256 ^ 4) (hne : blocks ≠ []) (hb : Packable blocks)
    (hchain : FormsChain firstHeight blocks) :
    ∃ body locations root,
      encodeChunk networkId index firstHeight blocks = .ok (body ++ (sha256 body).1, locations) ∧
      ChunkFormat body ⟨networkId, index, firstHeight, blocks, locations, root⟩
        (packedGroups blocks) := by
  obtain ⟨hflat, hgroups, hcount⟩ := groups_spec blocks
  have hlen : (packedGroups blocks).length = (blocks.length + SEGMENT_BLOCKS - 1) / SEGMENT_BLOCKS := by
    rw [packedGroups, List.length_map, hcount]
  have hsnd : (packedGroups blocks).map Prod.snd =
      (groups blocks).map fun g => deflate (frames g) := by
    rw [packedGroups, List.map_map]
    rfl
  have hfst : (packedGroups blocks).map Prod.fst = groups blocks := by
    rw [packedGroups, List.map_map]
    exact List.map_id _
  have hpack : ∀ g ∈ groups blocks, packSegment g = .ok (deflate (frames g)) ∧
      unpackSegment (deflate (frames g)) = .ok g ∧ 0 < (deflate (frames g)).length ∧
      (deflate (frames g)).length < 2 ^ 32 := by
    intro g hg
    obtain ⟨h64, hmem⟩ := hgroups g hg
    have hpg : Packable g := fun b hb' => hb b (hmem b hb')
    obtain ⟨h1, h2⟩ := unpackSegment_packSegment hpg h64
    exact ⟨h1, h2, Packing.length_deflate _ ((length_frames hpg).trans (Nat.mul_le_mul_right _ h64))⟩
  have hsegments : (groups blocks).mapM packSegment = .ok ((packedGroups blocks).map Prod.snd) := by
    rw [hsnd, mapM_eq_ok, List.forall₂_map_right_iff, List.forall₂_same]
    exact fun g hg => (hpack g hg).1
  have hmem : ∀ p ∈ packedGroups blocks, ∃ g ∈ groups blocks, p = (g, deflate (frames g)) := by
    intro p hp
    obtain ⟨g, hg, rfl⟩ := List.mem_map.1 hp
    exact ⟨g, hg, rfl⟩
  -- The offsets fit: there are few segments, each shorter than `2 ^ 32`.
  have hrow32 : ∀ r ∈ rowsFrom (HEADER_BYTES + 12 * (packedGroups blocks).length)
      ((packedGroups blocks).map Prod.snd), r.2 < 2 ^ 32 := by
    have hall : ∀ (segments : List Bytes) (offset : ℕ), (∀ s ∈ segments, s.length < 2 ^ 32) →
        ∀ r ∈ rowsFrom offset segments, r.2 < 2 ^ 32 := by
      intro segments
      induction segments with
      | nil => exact fun _ _ r hr => absurd hr List.not_mem_nil
      | cons s segments ih =>
        intro offset hs r hr
        rcases List.mem_cons.1 hr with rfl | hr
        · exact hs s List.mem_cons_self
        · exact ih _ (fun s hs' => hs s (List.mem_cons_of_mem _ hs')) r hr
    refine hall _ _ fun s hs => ?_
    rw [hsnd] at hs
    obtain ⟨g, hg, rfl⟩ := List.mem_map.1 hs
    exact (hpack g hg).2.2.2
  have h64 : SEGMENT_BLOCKS = 64 := rfl
  have hHB : HEADER_BYTES = 61 := rfl
  rw [h64] at hlen
  have hrows : ∀ r ∈ rowsFrom (HEADER_BYTES + 12 * (packedGroups blocks).length)
      ((packedGroups blocks).map Prod.snd), r.1 < 256 ^ 8 ∧ r.2 < 256 ^ 4 := by
    intro r hr
    have hle := rowsFrom_le hrow32 r hr
    rw [List.length_map] at hle
    exact ⟨by omega, hrow32 r hr⟩
  obtain ⟨root, hroot⟩ : ∃ d, merkleRoot (blocks.map fun b => (blockIdOf b).1) = .ok d :=
    merkleRoot_isOk (by simpa using hne)
  have hk : (packedGroups blocks).length < 256 ^ 4 := by omega
  refine ⟨_, locationsFrom index (HEADER_BYTES + 12 * (packedGroups blocks).length)
    (packedGroups blocks), root, ?_, ⟨⟨hn, hi, hf, hc, hk⟩, hrows, rfl, ?_, ?_, ?_, ?_, hne, ?_, rfl,
    hroot, hchain⟩⟩
  · have hzip : (groups blocks).zip ((packedGroups blocks).map Prod.snd) = packedGroups blocks := by
      rw [← hfst]
      exact (List.zip_of_prod rfl rfl).symm
    have hlayout : layoutSegments index
        (HEADER_BYTES + 12 * ((packedGroups blocks).map Prod.snd).length)
        ((groups blocks).zip ((packedGroups blocks).map Prod.snd)) =
          .ok ((rowsFrom (HEADER_BYTES + 12 * (packedGroups blocks).length)
              ((packedGroups blocks).map Prod.snd)).flatMap rowBytes,
            locationsFrom index (HEADER_BYTES + 12 * (packedGroups blocks).length)
              (packedGroups blocks)) := by
      rw [hzip, List.length_map]
      exact layoutSegments_eq hrows
    refine bind_eq_ok.2 ⟨_, hsegments, bind_eq_ok.2 ⟨root, hroot, bind_eq_ok.2 ⟨_, hlayout, ?_⟩⟩⟩
    rw [List.length_map]
    refine bind_eq_ok.2 ⟨_, uintBytes_ok_iff.2 ⟨hn, rfl⟩, bind_eq_ok.2 ⟨_, uintBytes_ok_iff.2
      ⟨hi, rfl⟩, bind_eq_ok.2 ⟨_, uintBytes_ok_iff.2 ⟨hf, rfl⟩, bind_eq_ok.2 ⟨_,
      uintBytes_ok_iff.2 ⟨hc, rfl⟩, bind_eq_ok.2 ⟨_, uintBytes_ok_iff.2 ⟨hk, rfl⟩, ?_⟩⟩⟩⟩⟩
    simp only [headBytes, ChunkFile.head, List.append_assoc]
    rfl
  · intro s hs hnil
    rw [hsnd] at hs
    obtain ⟨g, hg, rfl⟩ := List.mem_map.1 hs
    have hpos := (hpack g hg).2.2.1
    rw [hnil] at hpos
    exact absurd hpos (lt_irrefl _)
  · intro p hp
    obtain ⟨g, hg, rfl⟩ := hmem p hp
    exact (hpack g hg).2.1
  · exact fullSegments_groupsFrom _ _
  · exact hlen
  · rw [List.flatMap_def, hfst, hflat]

/-- **Chunk files round-trip.** What is written of blocks that form a
chain is read back, with the locations that were returned; and each
location unpacks from the file to its block. -/
theorem chunk_roundTrip {networkId index firstHeight : ℕ} {blocks : List Bytes}
    {maxBlocks maxDecodedBytes : Option ℕ} (hn : networkId < 2 ^ 8) (hi : index < 2 ^ 32)
    (hf : firstHeight < 2 ^ 64) (hc : blocks.length < 2 ^ 32) (hne : blocks ≠ [])
    (hb : ∀ b ∈ blocks, 156 ≤ b.length ∧ b.length ≤ 1000000)
    (hchain : FormsChain firstHeight blocks) (hmax : ∀ most ∈ maxBlocks, blocks.length ≤ most)
    (hmost : ∀ most ∈ maxDecodedBytes, (blocks.map fun b => b.length + 4).sum ≤ most) :
    ∃ data locations root,
      encodeChunk networkId index firstHeight blocks = .ok (data, locations) ∧
      decodeChunk data maxBlocks maxDecodedBytes =
        .ok ⟨networkId, index, firstHeight, blocks, locations, root⟩ ∧
      merkleRoot (blocks.map fun b => (blockIdOf b).1) = .ok root ∧
      List.Forall₂ (UnpacksTo data index) locations blocks := by
  have hpack : Packable blocks := fun b hb' => ⟨(by decide : 1 ≤ 156).trans (hb b hb').1, (hb b hb').2⟩
  obtain ⟨body, locations, root, hencode, hformat⟩ :=
    encodeChunk_format hn hi hf hc hne hpack hchain
  exact ⟨_, locations, root, hencode, decodeChunk_ok_iff.2 ⟨body, _, rfl, hformat, hmax, hmost⟩,
    hformat.root, hformat.locations⟩

end

section

attribute [local instance] Sample.primitives

/-- Genesis and a block above it, at the bound on their number. -/
theorem chunk_roundTrip_sample :
    let blocks := [(genesisBlock Sample.params).serialize,
      (Sample.block (genesisBlock Sample.params) NO_SNAPSHOT 1 0 (2 ^ 255)).serialize]
    ∃ data locations root, encodeChunk 9 0 0 blocks = .ok (data, locations) ∧
      decodeChunk data (some 2) none = .ok ⟨9, 0, 0, blocks, locations, root⟩ := by
  intro blocks
  have hcheck : checkChain 0 none blocks = .ok () := eq_ok_of_isOk (by decide +kernel)
  have hsizes : ∀ b ∈ blocks, 156 ≤ b.length ∧ b.length ≤ 1000000 := by decide +kernel
  have hmax : ∀ most ∈ some 2, blocks.length ≤ most := fun most hm => le_of_eq (Option.some.inj hm)
  have hmost : ∀ most ∈ (none : Option ℕ), (blocks.map fun b => b.length + 4).sum ≤ most :=
    fun most hm => by cases hm
  obtain ⟨data, locations, root, hencode, hdecode, -⟩ := chunk_roundTrip (show 9 < 2 ^ 8 by decide)
    (show 0 < 2 ^ 32 by decide) (show 0 < 2 ^ 64 by decide) (show blocks.length < 2 ^ 32 by decide)
    (List.cons_ne_nil _ _) hsizes (checkChain_ok_iff.1 hcheck).1 hmax hmost
  exact ⟨data, locations, root, hencode, hdecode⟩

end

end TalCash
