import TalCash.Wallet.PaymentLink
/-!
# Links that are written

A request that was read is readable (`readable_of_parseLink`): its parts
are what the reader asks of them. The link written for it consists of
characters the reader takes as they are, so it is read back unless it is
too long (`parseLink_writtenLink`): a request that was read is written
unless its link is longer than links may be (`toLink_of_parseLink`).
-/

namespace TalCash

open Crypto

/-! ## Characters -/

/-- A character of a written link. -/
def isLinkChar (c : CodePoint) : Bool :=
  isQuoted c || c == ord ':' || c == ord '?' || c == ord '&' || c == ord '='

theorem isLinkChar_of_isQuoted {c : CodePoint} (h : isQuoted c = true) : isLinkChar c = true := by
  rw [isLinkChar, h]
  rfl

/-- No separator is written by `quote`. -/
theorem isQuoted_separators : isQuoted (ord '?') = false ∧ isQuoted (ord '&') = false ∧
    isQuoted (ord '=') = false := by decide

theorem isLinkChar_hash : isLinkChar (ord '#') = false := by decide

theorem not_isLinkChar_of_mem_ENDS {c : CodePoint} (h : c ∈ ENDS) : isLinkChar c = false := by
  have hall : ENDS.all (fun c => !isLinkChar c) = true := by decide
  simpa using List.all_eq_true.1 hall c h

theorem alwaysSafe_of_isDigit {c : CodePoint} (h : isDigit c = true) :
    alwaysSafe c.val = true := by
  simp only [isDigit, Bool.and_eq_true, decide_eq_true_eq] at h
  simp only [alwaysSafe, Bool.or_eq_true, Bool.and_eq_true, decide_eq_true_eq]
  omega

theorem isQuoted_of_alwaysSafe {c : CodePoint} (h : alwaysSafe c.val = true) :
    isQuoted c = true := by
  rw [isQuoted, h]
  rfl

/-- A link of such characters has nothing to strip. -/
theorem stripEnds_eq_self {t : Text} (h : ∀ c ∈ t, isLinkChar c = true) : stripEnds t = t := by
  have hends : ∀ c ∈ t, ¬ decide (c ∈ ENDS) = true := fun c hc hm => by
    have hno := not_isLinkChar_of_mem_ENDS (of_decide_eq_true hm)
    rw [h c hc] at hno
    cases hno
  have hdrop : t.dropWhile (· ∈ ENDS) = t := by
    cases t with
    | nil => rfl
    | cons c t => exact List.dropWhile_cons_of_neg (hends c List.mem_cons_self)
  rw [stripEnds, hdrop, List.rdropWhile_eq_self_iff]
  exact fun hne => hends _ (List.getLast_mem hne)

/-! ## The parts of a request that was read -/

theorem alwaysSafe_of_mem_ALPHABET {c : CodePoint} (h : c ∈ ALPHABET) :
    alwaysSafe c.val = true := by
  have hall : ALPHABET.all (fun c => alwaysSafe c.val) = true := by decide
  exact List.all_eq_true.1 hall c h

section

variable [Library] [Unicode]

/-- A network whose prefix needs no escapes. -/
def SafePrefix (network : Network) : Prop := ∀ c ∈ network.addressPrefix, isQuoted c = true

omit [Library] [Unicode] in
theorem safePrefix_of_mem {network : Network} (h : network ∈ NETWORKS) : SafePrefix network := by
  have hall : NETWORKS.all (fun network => network.addressPrefix.all isQuoted) = true := by decide
  exact List.all_eq_true.1 (List.all_eq_true.1 hall network h)

/-- Addresses are written without escapes. -/
theorem networkOf_spec {address : Text} : ∀ {networks : List Network} {network : Network},
    (∀ n ∈ networks, SafePrefix n) → networkOf address networks = .ok network →
    ∀ c ∈ address, isQuoted c = true := by
  intro networks
  induction networks with
  | nil =>
    intro _ _ h
    cases h
  | cons n networks ih =>
    intro network hsafe h c hc
    obtain ⟨hn, hrest⟩ := List.forall_mem_cons.1 hsafe
    rw [networkOf] at h
    split at h
    · rcases decodeAddress_cases n.addressPrefix_ascii address with
        ⟨payload, check, -, -, heq, -⟩ | ⟨detail, hdetail⟩
      · rw [heq] at hc
        rcases List.mem_append.1 hc with hc | hc
        · exact hn c hc
        · exact isQuoted_of_alwaysSafe
            (alwaysSafe_of_mem_ALPHABET (mem_ALPHABET_of_mem_b58encode hc))
      · rw [hdetail] at h
        cases h
    · exact ih hrest h c hc

/-- A value the reader takes: not empty, and nothing in it is forbidden. -/
def Admissible (value : Text) : Prop := value ≠ [] ∧ value.any forbidden = false

omit [Library] in
theorem decodePart_spec {name raw value : Text} (h : decodePart name raw = .ok value) :
    Admissible value := by
  rw [decodePart] at h
  split at h
  · cases h
  · rename_i hne
    split at h
    · cases h
    · split at h
      · cases h
      · rename_i out hout
        split at h
        · cases h
        · rename_i hforbidden
          cases h
          exact ⟨unquote_ne_nil hne hout, Bool.not_eq_true _ ▸ hforbidden⟩

omit [Library] in
/-- Every value of a link is admissible. -/
theorem readParts_spec : ∀ {ps : List Text} {values values' : List (Text × Text)},
    (∀ v ∈ values, Admissible v.2) → readParts ps values = .ok values' →
    ∀ v ∈ values', Admissible v.2 := by
  intro ps
  induction ps with
  | nil =>
    intro values values' hvalues h
    cases h
    exact hvalues
  | cons part ps ih =>
    intro values values' hvalues h
    rw [readParts] at h
    split at h
    · cases h
    · split at h
      · cases h
      · split at h
        · cases h
        · obtain ⟨value, hvalue, h⟩ := bind_eq_ok.1 h
          refine ih (fun v hv => ?_) h
          rcases List.mem_append.1 hv with hv | hv
          · exact hvalues v hv
          · rw [List.mem_singleton.1 hv]
            exact decodePart_spec hvalue

/-- What is asked of the amount of a request. -/
def AmountOk (a : ℕ) : Prop :=
  a ≠ 0 ∧ a ≤ MAX_AMOUNT ∧ (formatAmount a false).any forbidden = false

omit [Library] in
/-- An amount that was read is written with characters that were read. -/
theorem readAmount_spec {value : Option Text} {amount : Option ℕ}
    (hvalue : ∀ v, value = some v → Admissible v) (h : readAmount value = .ok amount) :
    ∀ a, amount = some a → AmountOk a := by
  cases value with
  | none =>
    cases h
    exact fun a ha => (by cases ha)
  | some v =>
    rw [readAmount] at h
    split at h
    · cases h
    · split at h
      · cases h
      · cases h
      · rename_i units hunits
        split at h
        · cases h
        · rename_i hzero
          cases h
          intro a ha
          cases ha
          obtain ⟨hmax, whole, frac, ⟨hnum, hstrip⟩, hlen, -, rfl⟩ := parseAmount_eq_ok_iff.1 hunits
          refine ⟨hzero, hmax, ?_⟩
          rw [List.any_eq_false]
          intro c hc
          have hmem : c ∈ v := by
            have hw := mem_of_mem_formatAmount hnum hlen hc
            rw [← hstrip] at hw
            exact (List.dropWhile_sublist _).subset ((List.rdropWhile_prefix _ _).subset hw)
          exact List.any_eq_false.1 (hvalue v rfl).2 c hmem

omit [Library] in
theorem readMemo_spec {value memo : Option Text} (hvalue : ∀ v, value = some v → Admissible v)
    (h : readMemo value = .ok memo) : ∀ m, memo = some m → Admissible m ∧
      ∃ bytes, encodeUtf8 m = .ok bytes ∧ bytes.length ≤ MAX_MEMO_SIZE := by
  cases value with
  | none =>
    cases h
    exact fun m hm => (by cases hm)
  | some v =>
    rw [readMemo] at h
    split at h
    · cases h
    · rename_i bytes hbytes
      split at h
      · cases h
      · rename_i hlen
        cases h
        intro m hm
        cases hm
        exact ⟨hvalue v rfl, bytes, hbytes, not_lt.1 hlen⟩

omit [Library] in
theorem readLabel_spec {value label : Option Text} (hvalue : ∀ v, value = some v → Admissible v)
    (h : readLabel value = .ok label) :
    ∀ l, label = some l → Admissible l ∧ l.length ≤ MAX_LABEL_LENGTH := by
  cases value with
  | none =>
    cases h
    exact fun l hl => (by cases hl)
  | some v =>
    rw [readLabel] at h
    split at h
    · cases h
    · rename_i hlen
      cases h
      intro l hl
      cases hl
      exact ⟨hvalue v rfl, not_lt.1 hlen⟩

/-- A request that can be read: its parts are what the reader asks of
them. -/
structure Readable (r : PaymentRequest) : Prop where
  network : ∃ n, networkOf r.address NETWORKS = .ok n ∧ n.name = r.network
  amount : ∀ a, r.amount = some a → AmountOk a
  memo : ∀ m, r.memo = some m → Admissible m ∧
    ∃ bytes, encodeUtf8 m = .ok bytes ∧ bytes.length ≤ MAX_MEMO_SIZE
  label : ∀ l, r.label = some l → Admissible l ∧ l.length ≤ MAX_LABEL_LENGTH

/-- **What is read is readable.** -/
theorem readable_of_parseLink {t : Text} {params : Option Network} {r : PaymentRequest}
    (h : parseLink t params = .ok r) : Readable r := by
  rw [parseLink] at h
  split at h
  · cases h
  · split at h
    · cases h
    · split at h
      · cases h
      · split at h
        split at h
        · cases h
        · obtain ⟨network, hnetwork, h⟩ := bind_eq_ok.1 h
          obtain ⟨_, -, h⟩ := bind_eq_ok.1 h
          obtain ⟨values, hvalues, h⟩ := bind_eq_ok.1 h
          obtain ⟨_, -, h⟩ := bind_eq_ok.1 h
          obtain ⟨amount, hamount, h⟩ := bind_eq_ok.1 h
          obtain ⟨memo, hmemo, h⟩ := bind_eq_ok.1 h
          obtain ⟨label, hlabel, h⟩ := bind_eq_ok.1 h
          cases h
          have hadmissible : ∀ name v, values.lookup name = some v → Admissible v := by
            intro name v hv
            obtain ⟨before, after, rfl, -⟩ := List.lookup_eq_some_iff.1 hv
            exact readParts_spec (fun v hv => absurd hv List.not_mem_nil) hvalues _
              (List.mem_append_right _ List.mem_cons_self)
          exact ⟨⟨network, hnetwork, rfl⟩, readAmount_spec (hadmissible _) hamount,
            readMemo_spec (hadmissible _) hmemo, readLabel_spec (hadmissible _) hlabel⟩

/-! ## Reading the parts that are written -/

/-- A part of a written link: its name, what is written, and the value. -/
structure LinkPart where
  name : Text
  raw : Text
  value : Text

/-- The text of a part. -/
def LinkPart.text (p : LinkPart) : Text := p.name ++ ord '=' :: p.raw

/-- A part that is read as it was meant. -/
structure LinkPart.Good (p : LinkPart) : Prop where
  name : matchesName p.name = true
  name_quoted : ∀ c ∈ p.name, isQuoted c = true
  raw_quoted : ∀ c ∈ p.raw, isQuoted c = true
  decode : decodePart p.name p.raw = .ok p.value

omit [Library] in
theorem readParts_texts : ∀ (ps : List LinkPart) (values : List (Text × Text)),
    (∀ p ∈ ps, p.Good) → (values.map Prod.fst ++ ps.map LinkPart.name).Nodup →
    readParts (ps.map LinkPart.text) values =
      .ok (values ++ ps.map fun p => (p.name, p.value)) := by
  intro ps
  induction ps with
  | nil =>
    intro values _ _
    rw [List.map_nil, List.map_nil, List.append_nil]
    rfl
  | cons p ps ih =>
    intro values hgood hnodup
    obtain ⟨hp, hrest⟩ := List.forall_mem_cons.1 hgood
    have hsep : ord '=' ∉ p.name := fun hm => by
      have := hp.name_quoted _ hm
      rw [isQuoted_separators.2.2] at this
      cases this
    have hnew : values.lookup p.name = none := by
      rw [List.lookup_eq_none_iff]
      intro v hv
      rw [bne_iff_ne]
      rintro he
      refine (List.nodup_append'.1 hnodup).2.2 (List.mem_map_of_mem hv) ?_
      rw [← he]
      exact List.mem_cons_self
    rw [List.map_cons, readParts, LinkPart.text, partition_append hsep]
    dsimp only
    rw [hp.name, hnew, hp.decode]
    have htail := ih (values ++ [(p.name, p.value)]) hrest (by
      rw [List.map_append, List.append_assoc]
      exact hnodup)
    simp only [Bool.not_true, Bool.false_eq_true, if_false, Option.isSome_none, ok_bind]
    rw [htail, List.append_assoc]
    rfl

/-! ## Reading a written link -/

/-- What stands behind the address. -/
def queryText (ps : List LinkPart) : Text :=
  if ps.map LinkPart.text ≠ [] then
    ord '?' :: [ord '&'].intercalate (ps.map LinkPart.text)
  else []

omit [Library] in
theorem isLinkChar_of_mem_text {p : LinkPart} (h : p.Good) :
    ∀ c ∈ p.text, isLinkChar c = true := by
  intro c hc
  rcases List.mem_append.1 hc with hc | hc
  · exact isLinkChar_of_isQuoted (h.name_quoted c hc)
  · rcases List.mem_cons.1 hc with rfl | hc
    · decide
    · exact isLinkChar_of_isQuoted (h.raw_quoted c hc)

omit [Library] [Unicode] in
theorem mem_intercalate {sep c : CodePoint} : ∀ {parts : List Text},
    c ∈ [sep].intercalate parts → c = sep ∨ ∃ part ∈ parts, c ∈ part := by
  intro parts
  induction parts with
  | nil => exact fun h => absurd h List.not_mem_nil
  | cons part parts ih =>
    intro h
    cases parts with
    | nil =>
      rw [List.intercalate_singleton] at h
      exact .inr ⟨part, List.mem_cons_self, h⟩
    | cons part' parts =>
      rw [List.intercalate_cons_cons, List.append_assoc] at h
      rcases List.mem_append.1 h with h | h
      · exact .inr ⟨part, List.mem_cons_self, h⟩
      · rcases List.mem_cons.1 h with rfl | h
        · exact .inl rfl
        · rcases ih h with hc | ⟨p, hp, hc⟩
          · exact .inl hc
          · exact .inr ⟨p, List.mem_cons_of_mem _ hp, hc⟩

omit [Library] in
theorem isLinkChar_of_mem_queryText {ps : List LinkPart} (h : ∀ p ∈ ps, p.Good) :
    ∀ c ∈ queryText ps, isLinkChar c = true := by
  intro c hc
  rw [queryText] at hc
  split at hc
  · rcases List.mem_cons.1 hc with rfl | hc
    · decide
    · rcases mem_intercalate hc with rfl | ⟨part, hpart, hc⟩
      · decide
      · obtain ⟨p, hp, rfl⟩ := List.mem_map.1 hpart
        exact isLinkChar_of_mem_text (h p hp) c hc
  · exact absurd hc List.not_mem_nil

omit [Library] [Unicode] in
theorem query_ne_nil {ps : List LinkPart} (hne : ps ≠ []) :
    [ord '&'].intercalate (ps.map LinkPart.text) ≠ [] := by
  obtain ⟨p, ps, rfl⟩ := List.exists_cons_of_ne_nil hne
  have htext : p.text ≠ [] := List.append_ne_nil_of_right_ne_nil _ (List.cons_ne_nil _ _)
  rw [List.map_cons]
  cases ps with
  | nil =>
    rw [List.map_nil, List.intercalate_singleton]
    exact htext
  | cons q ps =>
    rw [List.map_cons, List.intercalate_cons_cons, List.append_assoc]
    exact List.append_ne_nil_of_left_ne_nil htext _

omit [Library] in
/-- The query is split into its parts again. -/
theorem splitQuery_queryText {ps : List LinkPart} (h : ∀ p ∈ ps, p.Good) (hne : ps ≠ []) :
    splitQuery (some ([ord '&'].intercalate (ps.map LinkPart.text))) = ps.map LinkPart.text := by
  have hsep : ∀ part ∈ ps.map LinkPart.text, ord '&' ∉ part := by
    intro part hpart hm
    obtain ⟨p, hp, rfl⟩ := List.mem_map.1 hpart
    have hquoted : ∀ c, c = ord '&' → isQuoted c = true → False := fun c hc hq => by
      rw [hc, isQuoted_separators.2.1] at hq
      cases hq
    rcases List.mem_append.1 hm with hm | hm
    · exact hquoted _ rfl ((h p hp).name_quoted _ hm)
    · rcases List.mem_cons.1 hm with he | hm
      · exact absurd he (by decide)
      · exact hquoted _ rfl ((h p hp).raw_quoted _ hm)
  have hmap : ps.map LinkPart.text ≠ [] := fun he => hne (List.map_eq_nil_iff.1 he)
  rw [splitQuery, if_neg (query_ne_nil hne), List.splitOn_intercalate (ord '&') hsep hmap]

theorem isLinkChar_of_mem_link {address : Text} {network : Network}
    (hnetwork : networkOf address NETWORKS = .ok network) {ps : List LinkPart}
    (hgood : ∀ p ∈ ps, p.Good) :
    ∀ c ∈ SCHEME ++ address ++ queryText ps, isLinkChar c = true := by
  have hscheme : SCHEME.all isLinkChar = true := by decide
  intro c hc
  rcases List.mem_append.1 hc with hc | hc
  · rcases List.mem_append.1 hc with hc | hc
    · exact List.all_eq_true.1 hscheme c hc
    · exact isLinkChar_of_isQuoted (networkOf_spec (fun n hn => safePrefix_of_mem hn) hnetwork c hc)
  · exact isLinkChar_of_mem_queryText hgood c hc

/-- **A written link is read back**: where all its parts are good and it is
not too long, the reader gets their values. -/
theorem parseLink_written (hlower : lower SCHEME = SCHEME) {address : Text} {network : Network}
    (hnetwork : networkOf address NETWORKS = .ok network) {ps : List LinkPart}
    (hgood : ∀ p ∈ ps, p.Good) (hnodup : (ps.map LinkPart.name).Nodup)
    (hrequired : ∀ p ∈ ps, (text "req-").isPrefixOf p.name = false) {r : PaymentRequest}
    (hamount : readAmount ((ps.map fun p => (p.name, p.value)).lookup (text "amount")) =
      .ok r.amount)
    (hmemo : readMemo ((ps.map fun p => (p.name, p.value)).lookup (text "memo")) = .ok r.memo)
    (hlabel : readLabel ((ps.map fun p => (p.name, p.value)).lookup (text "label")) = .ok r.label)
    (haddress : r.address = address) (hname : r.network = network.name)
    (hlen : (SCHEME ++ address ++ queryText ps).length ≤ MAX_LINK_LENGTH) :
    parseLink (SCHEME ++ address ++ queryText ps) none = .ok r := by
  have haddr := networkOf_spec (fun n hn => safePrefix_of_mem hn) hnetwork
  have hchars := isLinkChar_of_mem_link hnetwork hgood
  have hhash : ord '#' ∉ SCHEME ++ address ++ queryText ps := fun hm => by
    have := hchars _ hm
    rw [isLinkChar_hash] at this
    cases this
  have hquestion : ord '?' ∉ address := fun hm => by
    have := haddr _ hm
    rw [isQuoted_separators.1] at this
    cases this
  have hislink : isLink (SCHEME ++ address ++ queryText ps) = true := by
    rw [isLink, stripEnds_eq_self hchars, List.append_assoc, List.take_left, hlower]
    exact beq_self_eq_true _
  have hreq : checkRequired (ps.map fun p => (p.name, p.value)) = .ok () := by
    have hnone : (ps.map fun p => (p.name, p.value)).find?
        (fun v => (text "req-").isPrefixOf v.1) = none := by
      rw [List.find?_eq_none]
      intro v hv
      obtain ⟨p, hp, rfl⟩ := List.mem_map.1 hv
      rw [hrequired p hp]
      exact Bool.false_ne_true
    rw [checkRequired, hnone]
  have hread := readParts_texts ps [] hgood (by rw [List.map_nil, List.nil_append]; exact hnodup)
  rw [List.nil_append] at hread
  have hrest : (do
      let network ← networkOf address NETWORKS
      checkNetwork network none
      let values ← readParts (ps.map LinkPart.text) []
      checkRequired values
      let amount ← readAmount (values.lookup (text "amount"))
      let memo ← readMemo (values.lookup (text "memo"))
      let label ← readLabel (values.lookup (text "label"))
      pure (⟨network.name, address, amount, memo, label⟩ : PaymentRequest)) =
      (.ok r : Except LinkFailure PaymentRequest) := by
    rw [hnetwork, ok_bind, checkNetwork, ok_bind, hread, ok_bind, hreq, ok_bind, hamount, ok_bind,
      hmemo, ok_bind, hlabel, ok_bind, ← hname, ← haddress]
    rfl
  rw [parseLink, stripEnds_eq_self hchars, if_neg (not_lt.2 hlen), hislink, if_neg (by simp),
    if_neg hhash, List.append_assoc, List.drop_left]
  by_cases hne : ps = []
  · rw [queryText, if_neg (by rw [hne]; simp), List.append_nil, partition_of_not_mem hquestion]
    rw [hne] at hrest
    exact hrest
  · rw [queryText, if_pos fun he => hne (List.map_eq_nil_iff.1 he), partition_append hquestion]
    dsimp only
    rw [splitQuery_queryText hgood hne, if_neg]
    · exact hrest
    · exact fun he => query_ne_nil hne (Option.some.inj he)

/-! ## The parts of a request -/

/-- What is written for a text. -/
def quotedText (t : Text) : Text := (quote t).toOption.getD []

def amountPart (a : ℕ) : LinkPart := ⟨text "amount", formatAmount a false, formatAmount a false⟩
def memoPart (m : Text) : LinkPart := ⟨text "memo", quotedText m, m⟩
def labelPart (l : Text) : LinkPart := ⟨text "label", quotedText l, l⟩

/-- The parts a request is written in. -/
def PaymentRequest.linkParts (r : PaymentRequest) : List LinkPart :=
  (r.amount.map amountPart).toList ++ (r.memo.map memoPart).toList ++
    (r.label.map labelPart).toList

/-- The characters of the link written for a request. -/
def PaymentRequest.linkLength (r : PaymentRequest) : ℕ :=
  8 + r.address.length + (r.amount.elim 0 fun a => 8 + (formatAmount a false).length) +
    (r.memo.elim 0 fun m => 6 + quotedLength m) + r.label.elim 0 fun l => 7 + quotedLength l

omit [Library] [Unicode] in
theorem matchesName_names : matchesName (text "amount") = true ∧
    matchesName (text "memo") = true ∧ matchesName (text "label") = true := by decide

omit [Library] [Unicode] in
theorem isQuoted_names : (text "amount").all isQuoted = true ∧
    (text "memo").all isQuoted = true ∧ (text "label").all isQuoted = true := by decide

omit [Library] [Unicode] in
theorem quote_eq {t : Text} (h : NoSurrogate t) : quote t = .ok (quotedText t) := by
  obtain ⟨q, hq⟩ := quote_isOk_iff.2 h
  rw [quotedText, hq]
  rfl

omit [Library] [Unicode] in
theorem alwaysSafe_of_mem_formatAmount {a : ℕ} {c : CodePoint} (h : c ∈ formatAmount a false) :
    alwaysSafe c.val = true := by
  obtain ⟨frac, heq, hnum, -⟩ := formatAmount_written a false
  rw [heq, written] at h
  split at h
  · exact alwaysSafe_of_isDigit (hnum.whole_digits c h)
  · rcases List.mem_append.1 h with h | h
    · exact alwaysSafe_of_isDigit (hnum.whole_digits c h)
    · rcases List.mem_cons.1 h with rfl | h
      · decide
      · exact alwaysSafe_of_isDigit (hnum.frac_digits c h)

omit [Library] [Unicode] in
theorem matchesAmount_formatAmount (a : ℕ) : matchesAmount (formatAmount a false) = true := by
  obtain ⟨frac, heq, hnum, -⟩ := formatAmount_written a false
  have hwhole : (decimal (a / COIN)).isEmpty = false := by
    rw [List.isEmpty_eq_false_iff]
    exact hnum.whole_ne
  rw [heq, matchesAmount, hnum.takeWhile_written, hnum.dropWhile_written, hwhole]
  by_cases hfrac : frac = []
  · rw [if_pos hfrac]
    rfl
  · have hempty : frac.isEmpty = false := by
      rw [List.isEmpty_eq_false_iff]
      exact hfrac
    rw [if_neg hfrac]
    dsimp only
    rw [hempty, List.all_eq_true.2 hnum.frac_digits, beq_self_eq_true]
    rfl

omit [Library] in
theorem amountPart_good {a : ℕ} (h : AmountOk a) : (amountPart a).Good where
  name := matchesName_names.1
  name_quoted := List.all_eq_true.1 isQuoted_names.1
  raw_quoted c hc := isQuoted_of_alwaysSafe (alwaysSafe_of_mem_formatAmount hc)
  decode := by
    have hpercent : PERCENT ∉ formatAmount a false := fun hm =>
      ne_percent (alwaysSafe_of_mem_formatAmount hm) rfl
    have hne : formatAmount a false ≠ [] := by
      obtain ⟨frac, heq, hnum, -⟩ := formatAmount_written a false
      rw [heq, written]
      split
      · exact hnum.whole_ne
      · exact List.append_ne_nil_of_left_ne_nil hnum.whole_ne _
    rw [amountPart, decodePart, if_neg hne, hasBrokenEscape_of_not_mem hpercent, unquote,
      if_pos hpercent]
    dsimp only
    rw [h.2.2]
    rfl

omit [Library] in
/-- A text that is quoted is read back. -/
theorem decodePart_quotedText {t : Text} (h : Admissible t) (hno : NoSurrogate t) (name : Text) :
    decodePart name (quotedText t) = .ok t ∧ ∀ c ∈ quotedText t, isQuoted c = true := by
  obtain ⟨hread, hbroken, hquoted⟩ := unquote_quote (quote_eq hno)
  have hne : quotedText t ≠ [] := by
    intro he
    rw [he] at hread
    exact h.1 (Option.some.inj hread).symm
  refine ⟨?_, hquoted⟩
  rw [decodePart, if_neg hne, hbroken, hread]
  dsimp only
  rw [h.2]
  rfl

omit [Library] in
theorem memoPart_good {m : Text} (h : Admissible m) (hno : NoSurrogate m) :
    (memoPart m).Good where
  name := matchesName_names.2.1
  name_quoted := List.all_eq_true.1 isQuoted_names.2.1
  raw_quoted := (decodePart_quotedText h hno (text "memo")).2
  decode := (decodePart_quotedText h hno (text "memo")).1

omit [Library] in
theorem labelPart_good {l : Text} (h : Admissible l) (hno : NoSurrogate l) :
    (labelPart l).Good where
  name := matchesName_names.2.2
  name_quoted := List.all_eq_true.1 isQuoted_names.2.2
  raw_quoted := (decodePart_quotedText h hno (text "label")).2
  decode := (decodePart_quotedText h hno (text "label")).1

omit [Library] [Unicode] in
theorem names_option {α : Type} (o : Option α) {f : α → LinkPart} {name : Text}
    (h : ∀ a, (f a).name = name) :
    ((o.map f).toList.map LinkPart.name).Sublist [name] := by
  cases o with
  | none => exact List.nil_sublist _
  | some a =>
    rw [Option.map_some, Option.toList_some, List.map_singleton, h a]

omit [Library] [Unicode] in
theorem linkParts_names (r : PaymentRequest) :
    (r.linkParts.map LinkPart.name).Sublist [text "amount", text "memo", text "label"] := by
  have hamount : ((r.amount.map amountPart).toList.map LinkPart.name).Sublist [text "amount"] :=
    names_option _ fun _ => rfl
  have hmemo : ((r.memo.map memoPart).toList.map LinkPart.name).Sublist [text "memo"] :=
    names_option _ fun _ => rfl
  have hlabel : ((r.label.map labelPart).toList.map LinkPart.name).Sublist [text "label"] :=
    names_option _ fun _ => rfl
  rw [PaymentRequest.linkParts, List.map_append, List.map_append]
  exact (hamount.append hmemo).append hlabel

omit [Library] [Unicode] in
/-- The parts have different names, none of which the reader must know. -/
theorem linkParts_nodup (r : PaymentRequest) :
    (r.linkParts.map LinkPart.name).Nodup ∧
      ∀ p ∈ r.linkParts, (text "req-").isPrefixOf p.name = false := by
  have hnodup : [text "amount", text "memo", text "label"].Nodup := by decide
  have hnone : [text "amount", text "memo", text "label"].all
      (fun name => !(text "req-").isPrefixOf name) = true := by decide
  refine ⟨hnodup.sublist (linkParts_names r), fun p hp => ?_⟩
  have hmem := (linkParts_names r).subset (List.mem_map_of_mem hp)
  simpa using List.all_eq_true.1 hnone _ hmem

omit [Library] [Unicode] in
/-- The values of the parts are those of the request. -/
theorem linkParts_values (r : PaymentRequest) :
    (r.linkParts.map fun p => (p.name, p.value)).lookup (text "amount") =
        r.amount.map (fun a : ℕ => formatAmount a false) ∧
      (r.linkParts.map fun p => (p.name, p.value)).lookup (text "memo") = r.memo ∧
      (r.linkParts.map fun p => (p.name, p.value)).lookup (text "label") = r.label := by
  obtain ⟨network, address, amount, memo, label⟩ := r
  cases amount <;> cases memo <;> cases label <;> exact ⟨rfl, rfl, rfl⟩

omit [Library] [Unicode] in
theorem length_query : ∀ (ps : List LinkPart), ps ≠ [] →
    ([ord '&'].intercalate (ps.map LinkPart.text)).length + 1 =
      (ps.map fun p => p.text.length + 1).sum := by
  intro ps
  induction ps with
  | nil => exact fun h => absurd rfl h
  | cons p ps ih =>
    intro _
    cases ps with
    | nil =>
      rw [List.map_singleton, List.intercalate_singleton, List.map_singleton, List.sum_singleton]
    | cons q ps =>
      have htail := ih (List.cons_ne_nil _ _)
      rw [List.map_cons, List.map_cons, List.intercalate_cons_cons, List.map_cons, List.sum_cons,
        ← htail, List.length_append, List.length_append, List.length_singleton, List.map_cons]
      omega

omit [Library] [Unicode] in
theorem length_queryText (ps : List LinkPart) :
    (queryText ps).length = (ps.map fun p => p.text.length + 1).sum := by
  by_cases hne : ps = []
  · rw [hne]
    rfl
  · rw [queryText, if_pos fun he => hne (List.map_eq_nil_iff.1 he), List.length_cons,
      length_query ps hne]

omit [Library] [Unicode] in
theorem sum_option {α : Type} {o : Option α} {f : α → LinkPart} {length : α → ℕ}
    (h : ∀ a, o = some a → (f a).text.length + 1 = length a) :
    ((o.map f).toList.map fun p => p.text.length + 1).sum = o.elim 0 length := by
  cases o with
  | none => rfl
  | some a => exact (List.sum_singleton).trans (h a rfl)

omit [Library] [Unicode] in
theorem length_text (p : LinkPart) : p.text.length = p.name.length + 1 + p.raw.length := by
  rw [LinkPart.text, List.length_append, List.length_cons]
  omega

omit [Library] [Unicode] in
/-- **The length of the link** of a request. -/
theorem length_link {r : PaymentRequest} (hmemo : ∀ m, r.memo = some m → NoSurrogate m)
    (hlabel : ∀ l, r.label = some l → NoSurrogate l) :
    (SCHEME ++ r.address ++ queryText r.linkParts).length = r.linkLength := by
  have hscheme : SCHEME.length = 8 := by decide
  have hnames : (text "amount").length = 6 ∧ (text "memo").length = 4 ∧
    (text "label").length = 5 := by decide
  have hquoted : ∀ t, NoSurrogate t → (quotedText t).length = quotedLength t := fun t ht =>
    length_quote (quote_eq ht)
  have hamount : ∀ a, r.amount = some a →
      (amountPart a).text.length + 1 = 8 + (formatAmount a false).length := fun a _ => by
    rw [length_text, show (amountPart a).name = text "amount" from rfl, hnames.1,
      show (amountPart a).raw = formatAmount a false from rfl]
    omega
  have hmemo : ∀ m, r.memo = some m → (memoPart m).text.length + 1 = 6 + quotedLength m :=
    fun m hm => by
      rw [length_text, show (memoPart m).name = text "memo" from rfl, hnames.2.1,
        show (memoPart m).raw = quotedText m from rfl, hquoted m (hmemo m hm)]
      omega
  have hlabel : ∀ l, r.label = some l → (labelPart l).text.length + 1 = 7 + quotedLength l :=
    fun l hl => by
      rw [length_text, show (labelPart l).name = text "label" from rfl, hnames.2.2,
        show (labelPart l).raw = quotedText l from rfl, hquoted l (hlabel l hl)]
      omega
  rw [List.length_append, List.length_append, hscheme, length_queryText,
    PaymentRequest.linkParts, PaymentRequest.linkLength, List.map_append, List.map_append,
    List.sum_append, List.sum_append, sum_option hamount, sum_option hmemo, sum_option hlabel]
  omega

omit [Library] [Unicode] in
theorem mapM_quote {name : Text} : ∀ {o : Option Text}, (∀ t, o = some t → NoSurrogate t) →
    (o.mapM fun t => do
      let raw ← quote t
      pure (name ++ raw)) = .ok (o.map fun t => name ++ quotedText t) := by
  intro o h
  cases o with
  | none => rfl
  | some t =>
    rw [Option.mapM_some, quote_eq (h t rfl), ok_bind]
    rfl

omit [Library] [Unicode] in
theorem parts_eq {r : PaymentRequest} (hmemo : ∀ m, r.memo = some m → NoSurrogate m)
    (hlabel : ∀ l, r.label = some l → NoSurrogate l) :
    r.parts = .ok (r.linkParts.map LinkPart.text) := by
  rw [PaymentRequest.parts, mapM_quote hmemo, ok_bind, mapM_quote hlabel, ok_bind]
  obtain ⟨network, address, amount, memo, label⟩ := r
  cases amount <;> cases memo <;> cases label <;> rfl

/-! ## Writing and reading -/

namespace Readable

variable {r : PaymentRequest}

/-- A memo has no lone surrogates, or it would have no bytes. -/
theorem memo_noSurrogate (h : Readable r) : ∀ m, r.memo = some m → NoSurrogate m := by
  intro m hm
  obtain ⟨-, bytes, hbytes, -⟩ := h.memo m hm
  rw [encodeUtf8] at hbytes
  split at hbytes
  · assumption
  · cases hbytes

theorem good (h : Readable r) (hlabel : ∀ l, r.label = some l → NoSurrogate l) :
    ∀ p ∈ r.linkParts, p.Good := by
  intro p hp
  rw [PaymentRequest.linkParts] at hp
  rcases List.mem_append.1 hp with hp | hp
  · rcases List.mem_append.1 hp with hp | hp
    · obtain ⟨a, ha, rfl⟩ := Option.map_eq_some_iff.1 (Option.mem_toList.1 hp)
      exact amountPart_good (h.amount a ha)
    · obtain ⟨m, hm, rfl⟩ := Option.map_eq_some_iff.1 (Option.mem_toList.1 hp)
      exact memoPart_good (h.memo m hm).1 (h.memo_noSurrogate m hm)
  · obtain ⟨l, hl, rfl⟩ := Option.map_eq_some_iff.1 (Option.mem_toList.1 hp)
    exact labelPart_good (h.label l hl).1 (hlabel l hl)

/-- The amount is read back. -/
theorem readAmount_eq (h : Readable r) :
    readAmount (r.amount.map fun a : ℕ => formatAmount a false) = .ok r.amount := by
  cases ha : r.amount with
  | none => rfl
  | some a =>
    obtain ⟨hzero, hmax, -⟩ := h.amount a ha
    rw [Option.map_some, readAmount, matchesAmount_formatAmount, parseAmount_formatAmount hmax]
    exact if_neg hzero

theorem readMemo_eq (h : Readable r) : readMemo r.memo = .ok r.memo := by
  cases hm : r.memo with
  | none => rfl
  | some m =>
    obtain ⟨-, bytes, hbytes, hlen⟩ := h.memo m hm
    rw [readMemo, hbytes]
    exact if_neg (not_lt.2 hlen)

theorem readLabel_eq (h : Readable r) : readLabel r.label = .ok r.label := by
  cases hl : r.label with
  | none => rfl
  | some l => exact if_neg (not_lt.2 (h.label l hl).2)

end Readable

/-- **What is written for a request that can be read** is read back, if it
is not too long. -/
theorem parseLink_writtenLink (hlower : lower SCHEME = SCHEME) {r : PaymentRequest}
    (h : Readable r) (hlabel : ∀ l, r.label = some l → NoSurrogate l)
    (hlen : r.linkLength ≤ MAX_LINK_LENGTH) :
    parseLink (SCHEME ++ r.address ++ queryText r.linkParts) none = .ok r := by
  obtain ⟨network, hnetwork, hname⟩ := h.network
  have hmemo := h.memo_noSurrogate
  obtain ⟨hnodup, hrequired⟩ := linkParts_nodup r
  obtain ⟨hamountValue, hmemoValue, hlabelValue⟩ := linkParts_values r
  refine parseLink_written hlower hnetwork (h.good hlabel) hnodup hrequired ?_ ?_ ?_ rfl
    hname.symm ((length_link hmemo hlabel).trans_le hlen)
  · rw [hamountValue, h.readAmount_eq]
  · rw [hmemoValue, h.readMemo_eq]
  · rw [hlabelValue, h.readLabel_eq]

omit [Library] [Unicode] in
/-- A label that is written has no lone surrogates. -/
theorem noSurrogate_of_parts {r : PaymentRequest} {texts : List Text}
    (h : r.parts = .ok texts) : ∀ l, r.label = some l → NoSurrogate l := by
  intro l hl
  obtain ⟨_, -, h⟩ := bind_eq_ok.1 h
  obtain ⟨_, hlabel, -⟩ := bind_eq_ok.1 h
  rw [hl, Option.mapM_some] at hlabel
  cases hq : quote l with
  | error e =>
    rw [hq, error_bind] at hlabel
    cases hlabel
  | ok q => exact quote_isOk_iff.1 ⟨q, hq⟩

/-- A label with a lone surrogate is not written. -/
theorem noSurrogate_of_toLink {r : PaymentRequest} {link : Text} (h : r.toLink = .ok link) :
    ∀ l, r.label = some l → NoSurrogate l := by
  rw [PaymentRequest.toLink] at h
  cases hparts : r.parts with
  | error e =>
    rw [hparts] at h
    cases h
  | ok texts => exact noSurrogate_of_parts hparts

/-- **What `to_link` does** with a request that can be read: it writes the
link of its parts, if the reader takes it back. -/
theorem toLink_eq {r : PaymentRequest} (h : Readable r)
    (hlabel : ∀ l, r.label = some l → NoSurrogate l) :
    r.toLink = (do
      let read ← parseLink (SCHEME ++ r.address ++ queryText r.linkParts) none
      if read ≠ r then .error (.link "this payment request can't be written as a valid link")
      else pure (SCHEME ++ r.address ++ queryText r.linkParts)) := by
  rw [PaymentRequest.toLink, parts_eq h.memo_noSurrogate hlabel]
  rfl

/-- A link of more characters is refused, also when it is `to_link` that
wrote it. -/
theorem parseLink_too_long {r : PaymentRequest} (h : Readable r)
    (hlabel : ∀ l, r.label = some l → NoSurrogate l) (hlen : MAX_LINK_LENGTH < r.linkLength) :
    parseLink (SCHEME ++ r.address ++ queryText r.linkParts) none =
      .error (.link s!"the payment link is longer than {MAX_LINK_LENGTH} characters") := by
  obtain ⟨network, hnetwork, -⟩ := h.network
  rw [← length_link h.memo_noSurrogate hlabel] at hlen
  rw [parseLink, stripEnds_eq_self (isLinkChar_of_mem_link hnetwork (h.good hlabel))]
  exact if_pos hlen

/-- **Requests that were read are written.** For every text the reader
accepts, `to_link` writes a link that reads as the same request if the
written link, of `linkLength` characters, is not longer than links may be.
If it is longer, `to_link` raises what the reader raises for it. -/
theorem toLink_of_parseLink (hlower : lower SCHEME = SCHEME) {t : Text}
    {params : Option Network} {r : PaymentRequest} (h : parseLink t params = .ok r)
    (hlabel : ∀ l, r.label = some l → NoSurrogate l) :
    (r.linkLength ≤ MAX_LINK_LENGTH →
      ∃ link, r.toLink = .ok link ∧ parseLink link none = .ok r) ∧
    (MAX_LINK_LENGTH < r.linkLength →
      r.toLink =
        .error (.link s!"the payment link is longer than {MAX_LINK_LENGTH} characters")) := by
  have hreadable := readable_of_parseLink h
  rw [toLink_eq hreadable hlabel]
  constructor
  · intro hlen
    have hread := parseLink_writtenLink hlower hreadable hlabel hlen
    refine ⟨_, ?_, hread⟩
    rw [hread, ok_bind, if_neg (not_not.2 rfl)]
    rfl
  · intro hlen
    rw [parseLink_too_long hreadable hlabel hlen, error_bind]

end

attribute [local instance] Sample.primitives Sample.unicode

/-! ## Sample links -/

/-- The address of a payload on the test network. -/
def Sample.address (payload : Bytes) : Text := (encodeAddress payload (text "tt")).toOption.getD []

/-- A link with a scheme in capitals, zeros around the amount and escapes. -/
def Sample.link : Text :=
  text " TALCASH:" ++ Sample.address (List.replicate 21 0) ++
    text "?amount=012.50&memo=order%20%2317&label=Caf%C3%A9"

/-- The request of the link. -/
def Sample.request : PaymentRequest where
  network := "testnet"
  address := Sample.address (List.replicate 21 0)
  amount := some 12500000
  memo := some (text "order #17")
  label := some (text "Caf" ++ [chr 0xe9])

/-- The link is read, and written with its escapes. -/
theorem toLink_of_parseLink_sample :
    parseLink Sample.link none = .ok Sample.request ∧
      ∃ link, Sample.request.toLink = .ok link ∧ parseLink link none = .ok Sample.request := by
  have hread : parseLink Sample.link none = .ok Sample.request :=
    toOption_eq_some.1 (by decide +kernel)
  have hlower : Unicode.lower SCHEME = SCHEME := by decide
  have hlabel : ∀ l, Sample.request.label = some l → NoSurrogate l := by
    rintro l ⟨⟩
    decide
  exact ⟨hread, (toLink_of_parseLink hlower hread hlabel).1 (by decide +kernel)⟩

/-- A link with the longest memo and the longest label, their characters
not escaped. -/
def Sample.longLink : Text :=
  text "talcash:" ++ Sample.address (0 :: List.replicate 20 255) ++
    text "?amount=9223372036854.775807&memo=" ++ List.replicate 85 (chr 0x2615) ++
    text "&label=" ++ List.replicate 100 (chr 0x1f600)

/-- The request of the link. -/
def Sample.longRequest : PaymentRequest where
  network := "testnet"
  address := Sample.address (0 :: List.replicate 20 255)
  amount := some 9223372036854775807
  memo := some (List.replicate 85 (chr 0x2615))
  label := some (List.replicate 100 (chr 0x1f600))

/-- **A request at all its limits is read and not written**: with escapes
the link would have 2,050 characters. -/
theorem toLink_too_long : ¬ ∀ (t : Text) (params : Option Network) (r : PaymentRequest),
    parseLink t params = .ok r →
    ∃ link, r.toLink = .ok link ∧ parseLink link none = .ok r := by
  intro h
  have hread : parseLink Sample.longLink none = .ok Sample.longRequest :=
    toOption_eq_some.1 (by decide +kernel)
  obtain ⟨link, hlink, -⟩ := h _ _ _ hread
  have hnone : Sample.longRequest.toLink.toOption = none := by decide +kernel
  rw [hlink] at hnone
  cases hnone

end TalCash
