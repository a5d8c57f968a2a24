import DS4.Server.StreamSafe

namespace DS4.Server

/-!
# Server — tool-call blocks in pieces

The tool block is parsed as far as the text has arrived.  `toolRun full ts` is what is parsed and
sent of a whole text; stopping at a cut of the text and going on sends the same.

* `Same` — two lists of deltas from which a client puts together the same response.
* `toolRun_eq` — one turn of the loop.
* `toolStep_cut` — a turn on a cut text is a turn on the text, or stops where the text goes on.
* `toolRun_cut` — **the loop** stops at a cut and goes on to the same end.
-/

/-! ### Deltas -/

/-- Two lists of deltas from which a client puts together the same response. -/
structure Same (ds ds' : List Delta) : Prop where
  reasoning : reasoningOf ds = reasoningOf ds'
  content : contentOf ds = contentOf ds'
  starts : startsOf ds = startsOf ds'
  args : ∀ i, argsOf i ds = argsOf i ds'

@[simp] theorem reasoningOf_append (ds ds' : List Delta) :
    reasoningOf (ds ++ ds') = reasoningOf ds ++ reasoningOf ds' := List.flatMap_append

@[simp] theorem contentOf_append (ds ds' : List Delta) :
    contentOf (ds ++ ds') = contentOf ds ++ contentOf ds' := List.flatMap_append

@[simp] theorem startsOf_append (ds ds' : List Delta) :
    startsOf (ds ++ ds') = startsOf ds ++ startsOf ds' := List.flatMap_append

@[simp] theorem argsOf_append (i : Nat) (ds ds' : List Delta) :
    argsOf i (ds ++ ds') = argsOf i ds ++ argsOf i ds' := List.flatMap_append

theorem Same.refl (ds : List Delta) : Same ds ds := ⟨rfl, rfl, rfl, fun _ => rfl⟩

theorem Same.symm {ds ds' : List Delta} (h : Same ds ds') : Same ds' ds :=
  ⟨h.reasoning.symm, h.content.symm, h.starts.symm, fun i => (h.args i).symm⟩

theorem Same.trans {ds ds' ds'' : List Delta} (h : Same ds ds') (h' : Same ds' ds'') :
    Same ds ds'' :=
  ⟨h.reasoning.trans h'.reasoning, h.content.trans h'.content, h.starts.trans h'.starts,
    fun i => (h.args i).trans (h'.args i)⟩

theorem Same.append {a a' b b' : List Delta} (h : Same a a') (h' : Same b b') :
    Same (a ++ b) (a' ++ b') := by
  constructor
  · rw [reasoningOf_append, reasoningOf_append, h.reasoning, h'.reasoning]
  · rw [contentOf_append, contentOf_append, h.content, h'.content]
  · rw [startsOf_append, startsOf_append, h.starts, h'.starts]
  · intro i
    rw [argsOf_append, argsOf_append, h.args i, h'.args i]

theorem Same.of_eq {ds ds' : List Delta} (h : ds = ds') : Same ds ds' := h ▸ Same.refl ds

/-- Argument text may be sent in two parts. -/
theorem argsDelta_append (index : Nat) {a b : Bytes} (ha : NulFree a) (hb : NulFree b) :
    Same (argsDelta index (a ++ b)) (argsDelta index a ++ argsDelta index b) := by
  have hab : NulFree (a ++ b) := by
    intro c hc
    obtain hc | hc := List.mem_append.mp hc
    · exact ha c hc
    · exact hb c hc
  have hargs : ∀ (i : Nat) (t : Bytes), NulFree t →
      argsOf i (argsDelta index t) = if index = i then t else [] := by
    intro i t ht
    unfold argsDelta
    by_cases hnil : t = []
    · rw [if_pos hnil, hnil]
      exact (ite_self []).symm
    · rw [if_neg hnil, ht.cstr]
      exact List.append_nil _
  have hnone : ∀ t, reasoningOf (argsDelta index t) = [] ∧ contentOf (argsDelta index t) = [] ∧
      startsOf (argsDelta index t) = [] := by
    intro t
    unfold argsDelta
    split <;> exact ⟨rfl, rfl, rfl⟩
  constructor
  · rw [reasoningOf_append, (hnone _).1, (hnone _).1, (hnone _).1]
    rfl
  · rw [contentOf_append, (hnone _).2.1, (hnone _).2.1, (hnone _).2.1]
    rfl
  · rw [startsOf_append, (hnone _).2.2, (hnone _).2.2, (hnone _).2.2]
    rfl
  · intro i
    rw [argsOf_append, hargs i _ hab, hargs i _ ha, hargs i _ hb]
    by_cases hi : index = i
    · rw [if_pos hi, if_pos hi, if_pos hi]
    · rw [if_neg hi, if_neg hi, if_neg hi]
      rfl

theorem hexDigit_ne_zero {n : UInt8} (h : n < 16) : hexDigit n ≠ 0 := by
  have hall : ∀ k < 16, hexDigit (UInt8.ofNat k) ≠ 0 := by decide
  have hn : n = UInt8.ofNat n.toNat := by simp
  rw [hn]
  exact hall n.toNat h

/-- Bytes that a JSON string literal is made of. -/
theorem nulFree_jsonEscapeByte {d : UInt8} (hd : d ≠ 0) : NulFree (jsonEscapeByte d) := by
  have hlit : ∀ s ∈ [lit "\\n", lit "\\r", lit "\\t", lit "\\u00"], ∀ c ∈ s, c ≠ 0 := by
    decide +kernel
  unfold jsonEscapeByte
  intro c hc
  split at hc
  · obtain rfl | hc := List.mem_cons.mp hc
    · decide
    · rwa [List.mem_singleton.mp hc]
  · split at hc
    · exact hlit _ (by simp) c hc
    · split at hc
      · exact hlit _ (by simp) c hc
      · split at hc
        · exact hlit _ (by simp) c hc
        · split at hc
          · obtain hc | hc := List.mem_append.mp hc
            · exact hlit _ (by simp) c hc
            · -- the two hexadecimal digits of a control byte
              have h16 : d / 16 < 16 ∧ d % 16 < 16 := by
                rw [UInt8.lt_iff_toNat_lt, UInt8.lt_iff_toNat_lt, UInt8.toNat_div, UInt8.toNat_mod]
                have := d.toNat_lt
                show d.toNat / 16 < 16 ∧ d.toNat % 16 < 16
                omega
              obtain rfl | hc := List.mem_cons.mp hc
              · exact hexDigit_ne_zero h16.1
              · rw [List.mem_singleton.mp hc]
                exact hexDigit_ne_zero h16.2
          · rwa [List.mem_singleton.mp hc]

theorem nulFree_jsonEscapeFragment {s : Bytes} (h : NulFree s) : NulFree (jsonEscapeFragment s) := by
  intro c hc
  obtain ⟨d, hd, hcd⟩ := List.mem_flatMap.mp hc
  exact nulFree_jsonEscapeByte (h d hd) c hcd

namespace OpenaiToolStream

theorem emitValue_nil (ts : OpenaiToolStream) : ts.emitValue [] = [] := by
  unfold emitValue argsDelta
  split
  · rw [if_pos rfl]
  · rw [if_pos rfl]

/-- **A value in two parts**, cut between entities if it is a string. -/
theorem emitValue_append (ts : OpenaiToolStream) {a b : Bytes} (ha : NulFree a) (hb : NulFree b)
    (hcut : ts.paramIsString = true → ∀ j < a.length, ∀ e ∈ dsmlEntities.map Prod.fst,
      e <+: (a ++ b).drop j → j + e.length ≤ a.length) :
    Same (ts.emitValue (a ++ b)) (ts.emitValue a ++ ts.emitValue b) := by
  have hab : NulFree (a ++ b) := by
    intro c hc
    obtain hc | hc := List.mem_append.mp hc
    · exact ha c hc
    · exact hb c hc
  by_cases hs : ts.paramIsString = true
  · have htext : ∀ t : Bytes, NulFree t →
        ts.emitValue t = argsDelta ts.index (jsonEscapeFragment (unescapeFrom 0 t)) := by
      intro t ht
      unfold emitValue
      rw [if_pos hs]
      by_cases hnil : t = []
      · rw [if_pos hnil, hnil]
        rfl
      · rw [if_neg hnil]
        unfold dsmlUnescapeText
        rw [ht.cstr, (ht.unescapeFrom 0).cstr]
    have hsplit : unescapeFrom 0 (a ++ b) = unescapeFrom 0 a ++ unescapeFrom 0 b :=
      unescapeFrom_append (Nat.zero_le _) (hcut hs)
    rw [htext _ hab, htext _ ha, htext _ hb, hsplit]
    have hfrag : jsonEscapeFragment (unescapeFrom 0 a ++ unescapeFrom 0 b) =
        jsonEscapeFragment (unescapeFrom 0 a) ++ jsonEscapeFragment (unescapeFrom 0 b) :=
      List.flatMap_append
    rw [hfrag]
    exact argsDelta_append ts.index (nulFree_jsonEscapeFragment (ha.unescapeFrom 0))
      (nulFree_jsonEscapeFragment (hb.unescapeFrom 0))
  · have htext : ∀ t : Bytes, ts.emitValue t = argsDelta ts.index t := by
      intro t
      unfold emitValue
      rw [if_neg hs]
    rw [htext, htext, htext]
    exact argsDelta_append ts.index ha hb

end OpenaiToolStream

/-! ### One turn at a cut -/

variable {full : Bytes} {n : Nat}

/-- What has arrived at a position. -/
theorem slice_cut {pos : Nat} (hn : n ≤ full.length) (hpos : pos ≤ n) :
    slice full pos full.length = slice full pos n ++ full.drop n := by
  rw [slice_append hpos hn, slice_length_eq]

/-- A byte of a slice. -/
theorem slice_getElem? (raw : Bytes) {a b j : Nat} (hj : a + j < b) :
    (slice raw a b)[j]? = raw[a + j]? := by
  unfold slice
  rw [List.getElem?_drop, Lib.getElem?_take_lt hj]

/-- **White space** is skipped up to the first byte that is none. -/
theorem skipSpace_eq_iff {raw : Bytes} {rawLen pos q : Nat} (hlen : rawLen ≤ raw.length)
    (hpos : pos ≤ q) (hq : q ≤ rawLen) :
    skipSpace raw rawLen pos = q ↔
      (∀ j, pos ≤ j → j < q → ∀ c, raw[j]? = some c → isspace c = true) ∧
        (q = rawLen ∨ ∃ c, raw[q]? = some c ∧ isspace c = false) := by
  obtain ⟨k, rfl⟩ : ∃ k, q = pos + k := ⟨q - pos, by omega⟩
  have hsl : (slice raw pos rawLen).length = rawLen - pos := slice_length hlen
  have hiff := Lib.length_takeWhile_eq_iff (p := isspace) (l := slice raw pos rawLen) (k := k)
    (by omega)
  unfold skipSpace
  rw [Nat.add_left_cancel_iff, hiff, hsl]
  constructor
  · rintro ⟨hall, hend⟩
    refine ⟨fun j hj hj' c hc => ?_, ?_⟩
    · refine hall (j - pos) (by omega) c ?_
      rw [slice_getElem? raw (by omega), show pos + (j - pos) = j by omega]
      exact hc
    · obtain h | ⟨c, hc, hsp⟩ := hend
      · exact Or.inl (by omega)
      · by_cases hlt : pos + k < rawLen
        · rw [slice_getElem? raw hlt] at hc
          exact Or.inr ⟨c, hc, hsp⟩
        · exact Or.inl (by omega)
  · rintro ⟨hall, hend⟩
    refine ⟨fun j hj c hc => ?_, ?_⟩
    · rw [slice_getElem? raw (by omega)] at hc
      exact hall (pos + j) (by omega) (by omega) c hc
    · obtain h | ⟨c, hc, hsp⟩ := hend
      · exact Or.inl (by omega)
      · by_cases hlt : pos + k < rawLen
        · exact Or.inr ⟨c, by rw [slice_getElem? raw hlt]; exact hc, hsp⟩
        · exact Or.inl (by omega)

theorem skipSpace_bounds {raw : Bytes} {rawLen pos : Nat} (hlen : rawLen ≤ raw.length)
    (hpos : pos ≤ rawLen) :
    pos ≤ skipSpace raw rawLen pos ∧ skipSpace raw rawLen pos ≤ rawLen := by
  have hle := (List.takeWhile_sublist (l := slice raw pos rawLen) isspace).length_le
  rw [slice_length hlen] at hle
  unfold skipSpace
  omega

/-- **White space, cut.** Skipping it up to a cut and going on is skipping it. -/
theorem skipSpace_cut {pos : Nat} (hn : n ≤ full.length) (hpos : pos ≤ n) :
    (skipSpace (full.take n) n pos < n →
        skipSpace full full.length pos = skipSpace (full.take n) n pos) ∧
      skipSpace full full.length (skipSpace (full.take n) n pos) =
        skipSpace full full.length pos := by
  have htake : n ≤ (full.take n).length := by
    rw [List.length_take]
    omega
  obtain ⟨hlb, hub⟩ := skipSpace_bounds htake hpos
  obtain ⟨hlb', hub'⟩ := skipSpace_bounds (Nat.le_refl full.length) (Nat.le_trans hub hn)
  obtain ⟨hall, hend⟩ := (skipSpace_eq_iff htake hlb hub).mp rfl
  obtain ⟨hall', hend'⟩ := (skipSpace_eq_iff (Nat.le_refl _) hlb' hub').mp rfl
  generalize hq : skipSpace (full.take n) n pos = q at *
  constructor
  · intro hlt
    apply (skipSpace_eq_iff (Nat.le_refl _) hlb (by omega)).mpr
    refine ⟨fun j hj hj' c hc => hall j hj hj' c ?_, Or.inr ?_⟩
    · rw [Lib.getElem?_take_lt (by omega)]
      exact hc
    · obtain h | ⟨c, hc, hsp⟩ := hend
      · omega
      · rw [Lib.getElem?_take_lt hlt] at hc
        exact ⟨c, hc, hsp⟩
  · symm
    apply (skipSpace_eq_iff (Nat.le_refl _) (Nat.le_trans hlb hlb') hub').mpr
    refine ⟨fun j hj hj' c hc => ?_, hend'⟩
    by_cases hjq : j < q
    · exact hall j hj hjq c (by rw [Lib.getElem?_take_lt (by omega)]; exact hc)
    · exact hall' j (by omega) hj' c hc

/-- What is a marker in the part that has arrived is one in the text. -/
theorem rawFullLit_mono {pos : Nat} {pat : Bytes} (hn : n ≤ full.length)
    (h : rawFullLit (full.take n) n pos pat = true) : rawFullLit full full.length pos pat = true := by
  unfold rawFullLit at h ⊢
  rw [Bool.and_eq_true, decide_eq_true_eq, List.isPrefixOf_iff_prefix] at h ⊢
  obtain ⟨hpos, hp⟩ := h
  rw [slice_take (Nat.le_refl n)] at hp
  refine ⟨Nat.le_trans hpos hn, ?_⟩
  rw [slice_cut hn hpos]
  exact hp.trans (List.prefix_append _ _)

/-- A marker in the text has arrived or is partial. -/
theorem rawFullLit_cut {pos : Nat} {pat : Bytes} (hn : n ≤ full.length) (hpos : pos ≤ n)
    (h : rawFullLit full full.length pos pat = true) :
    rawFullLit (full.take n) n pos pat = true ∨ rawPartialLit (full.take n) n pos pat = true := by
  unfold rawFullLit rawPartialLit at *
  rw [Bool.and_eq_true, decide_eq_true_eq, List.isPrefixOf_iff_prefix] at *
  rw [slice_take (Nat.le_refl n), Bool.and_eq_true, decide_eq_true_eq, List.isPrefixOf_iff_prefix]
  obtain ⟨-, hp⟩ := h
  rw [slice_cut hn hpos] at hp
  have hlen : (slice full pos n).length = n - pos := slice_length hn
  by_cases hfit : pat.length ≤ n - pos
  · exact Or.inl ⟨hpos, List.prefix_of_prefix_length_le hp (List.prefix_append _ _) (by omega)⟩
  · exact Or.inr ⟨⟨hpos, by omega⟩,
      List.prefix_of_prefix_length_le (List.prefix_append _ _) hp (by omega)⟩

theorem rawPartialLit_cut {pos : Nat} {pat : Bytes} (hn : n ≤ full.length) (hpos : pos ≤ n)
    (h : rawPartialLit full full.length pos pat = true) :
    rawPartialLit (full.take n) n pos pat = true := by
  unfold rawPartialLit at *
  rw [Bool.and_eq_true, decide_eq_true_eq, List.isPrefixOf_iff_prefix] at *
  rw [slice_take (Nat.le_refl n)]
  obtain ⟨⟨-, hlt⟩, hp⟩ := h
  rw [slice_cut hn hpos] at hp
  exact ⟨⟨hpos, by omega⟩, (List.prefix_append _ _).trans hp⟩

/-- **Two markers at a cut.** The first is there in both texts, or one of them is partial, or both
    texts agree on the second. -/
theorem markers_cut {pos : Nat} (a b : Bytes) (hn : n ≤ full.length) (hpos : pos ≤ n) :
    (rawFullLit (full.take n) n pos a = true ∧ rawFullLit full full.length pos a = true) ∨
      (rawFullLit (full.take n) n pos a = false ∧ rawPartialAny (full.take n) n pos a b = true) ∨
      (rawFullLit (full.take n) n pos a = false ∧ rawPartialAny (full.take n) n pos a b = false ∧
        rawFullLit full full.length pos a = false ∧
        rawPartialAny full full.length pos a b = false ∧
        rawFullLit full full.length pos b = rawFullLit (full.take n) n pos b) := by
  by_cases ha : rawFullLit (full.take n) n pos a = true
  · exact Or.inl ⟨ha, rawFullLit_mono hn ha⟩
  rw [Bool.not_eq_true] at ha
  by_cases hp : rawPartialAny (full.take n) n pos a b = true
  · exact Or.inr (Or.inl ⟨ha, hp⟩)
  rw [Bool.not_eq_true] at hp
  obtain ⟨hpa, hpb⟩ := Bool.or_eq_false_iff.mp hp
  refine Or.inr (Or.inr ⟨ha, hp, ?_, ?_, ?_⟩)
  · rw [Bool.eq_false_iff]
    intro h
    obtain h | h := rawFullLit_cut hn hpos h
    · rw [ha] at h
      exact absurd h (by simp)
    · rw [hpa] at h
      exact absurd h (by simp)
  · apply Bool.or_eq_false_iff.mpr
    constructor
    · rw [Bool.eq_false_iff]
      intro h
      have := rawPartialLit_cut hn hpos h
      rw [hpa] at this
      exact absurd this (by simp)
    · rw [Bool.eq_false_iff]
      intro h
      have := rawPartialLit_cut hn hpos h
      rw [hpb] at this
      exact absurd this (by simp)
  · rw [Bool.eq_iff_iff]
    constructor
    · intro h
      obtain h | h := rawFullLit_cut hn hpos h
      · exact h
      · rw [hpb] at h
        exact absurd h (by simp)
    · exact rawFullLit_mono hn

/-- A byte or tag found in the part that has arrived is found in the text. -/
theorem findLitBounded_cut {pos i : Nat} {pat : Bytes} (hpat : 0 < pat.length)
    (hn : n ≤ full.length) (h : findLitBounded (full.take n) n pos pat = some i) :
    findLitBounded full full.length pos pat = some i ∧ pos ≤ i ∧ i + pat.length ≤ n := by
  unfold findLitBounded at h ⊢
  obtain ⟨j, hj, rfl⟩ := Option.map_eq_some_iff.mp h
  have hfit := Lib.findSub_length_le hj
  have hlen : (full.take n).length = n := by
    rw [List.length_take]
    omega
  rw [slice_length (by omega)] at hfit
  have hraw : slice (full.take n) pos n = (full.take n).drop pos := by
    unfold slice
    rw [List.take_take, Nat.min_self]
  rw [hraw] at hj
  rw [slice_length_eq, Lib.findSub_take_some hpat hj]
  exact ⟨rfl, Nat.le_add_right _ _, by omega⟩

/-! ### The loop -/

/-- What the tool stream keeps along a text: its markers are a spelling's, and a value starts
    between two characters. -/
structure ToolInv (full : Bytes) (ts : OpenaiToolStream) : Prop where
  syn : ts.syn ∈ dsmlSyntaxes
  boundary : ts.state = .paramValue → Lib.Boundary full ts.parsePos

theorem marker_pos {syn : DsmlSyntax} (h : syn ∈ dsmlSyntaxes) {m : Bytes} (hm : m ∈ syn.markers) :
    0 < m.length := (headed_marker h hm).length_pos

theorem findLitBounded_bounds {raw : Bytes} {rawLen pos i : Nat} {pat : Bytes}
    (h : findLitBounded raw rawLen pos pat = some i) : pos ≤ i := by
  obtain ⟨j, -, rfl⟩ := Option.map_eq_some_iff.mp h
  exact Nat.le_add_right _ _

/-- A turn that goes on has moved, or ended the stream. -/
theorem toolStep_progress {raw : Bytes} {rawLen : Nat} {ts ts' : OpenaiToolStream}
    {ds : List Delta} (hsyn : ts.syn ∈ dsmlSyntaxes)
    (h : openaiToolStep raw rawLen ts = .next ts' ds) :
    ts'.syn ∈ dsmlSyntaxes ∧ (ts'.active = false ∨ ts.parsePos < ts'.parsePos) := by
  have hskip : ts.parsePos ≤ (ts.skipSpace raw rawLen).parsePos := Nat.le_add_right _ _
  have hsyn' : (ts.skipSpace raw rawLen).syn ∈ dsmlSyntaxes := hsyn
  unfold openaiToolStep at h
  cases hst : ts.state with
  | betweenInvokes =>
    rw [hst] at h
    dsimp only at h
    generalize ts.skipSpace raw rawLen = ts1 at h hskip hsyn'
    unfold openaiToolBetweenInvokes at h
    split at h
    · exact absurd h (by simp)
    split at h
    · exact absurd h (by simp)
    split at h
    · exact absurd h (by simp)
    split at h
    · unfold openaiToolStartInvoke at h
      split at h
      · exact absurd h (by simp)
      rename_i tagEnd htag
      have hle := findLitBounded_bounds htag
      split at h
      · obtain ⟨rfl, -⟩ := ToolStep.next.inj h
        exact ⟨hsyn', Or.inl rfl⟩
      · obtain ⟨rfl, -⟩ := ToolStep.next.inj h
        refine ⟨hsyn', Or.inr ?_⟩
        show ts.parsePos < tagEnd + 1
        omega
    · exact absurd h (by simp)
  | betweenParams =>
    rw [hst] at h
    dsimp only at h
    generalize ts.skipSpace raw rawLen = ts1 at h hskip hsyn'
    unfold openaiToolBetweenParams at h
    split at h
    · exact absurd h (by simp)
    split at h
    · obtain ⟨rfl, -⟩ := ToolStep.next.inj h
      refine ⟨hsyn', Or.inr ?_⟩
      have hpos := marker_pos hsyn' (m := ts1.syn.invokeEnd) (by simp [DsmlSyntax.markers])
      show ts.parsePos < ts1.parsePos + ts1.syn.invokeEnd.length
      omega
    split at h
    · exact absurd h (by simp)
    split at h
    · unfold openaiToolStartParam at h
      split at h
      · exact absurd h (by simp)
      rename_i tagEnd htag
      have hle := findLitBounded_bounds htag
      dsimp only at h
      split at h
      · obtain ⟨rfl, -⟩ := ToolStep.next.inj h
        refine ⟨hsyn', Or.inr ?_⟩
        show ts.parsePos < tagEnd + 1
        omega
      · obtain ⟨rfl, -⟩ := ToolStep.next.inj h
        exact ⟨hsyn', Or.inl rfl⟩
    · exact absurd h (by simp)
  | paramValue =>
    rw [hst] at h
    dsimp only at h
    unfold openaiToolParamValue at h
    split at h
    · rename_i valueEnd hend
      have hle := findLitBounded_bounds hend
      obtain ⟨rfl, -⟩ := ToolStep.next.inj h
      refine ⟨hsyn, Or.inr ?_⟩
      have hpos := (headed_paramEnd hsyn).length_pos
      show ts.parsePos < valueEnd + ts.syn.paramEnd.length
      omega
    · dsimp only at h
      split at h <;> exact absurd h (by simp)
  | done =>
    rw [hst] at h
    exact absurd h (by simp)
  | error =>
    rw [hst] at h
    exact absurd h (by simp)

theorem toolLoop_stop {raw : Bytes} {rawLen : Nat} {ts : OpenaiToolStream}
    (h : (ts.active && decide (ts.parsePos < rawLen)) = false) (fuel : Nat) :
    openaiToolLoop raw rawLen fuel ts = (ts, []) := by
  cases fuel with
  | zero => rfl
  | succ fuel =>
    unfold openaiToolLoop
    rw [if_neg (by rw [h]; simp)]

/-- **Turns.** As many turns as bytes are left are enough. -/
theorem toolLoop_fuel {raw : Bytes} {rawLen : Nat} {ts : OpenaiToolStream}
    (hsyn : ts.syn ∈ dsmlSyntaxes) (fuel fuel' : Nat) (h : rawLen - ts.parsePos ≤ fuel)
    (h' : rawLen - ts.parsePos ≤ fuel') :
    openaiToolLoop raw rawLen fuel ts = openaiToolLoop raw rawLen fuel' ts := by
  induction fuel generalizing fuel' ts with
  | zero =>
    have hstop : (ts.active && decide (ts.parsePos < rawLen)) = false := by
      rw [Bool.and_eq_false_iff, decide_eq_false_iff_not]
      exact Or.inr (by omega)
    rw [toolLoop_stop hstop, toolLoop_stop hstop]
  | succ fuel ih =>
    by_cases hgo : (ts.active && decide (ts.parsePos < rawLen)) = true
    · have hlt : ts.parsePos < rawLen := of_decide_eq_true (Bool.and_eq_true_iff.mp hgo).2
      obtain ⟨fuel', rfl⟩ : ∃ k, fuel' = k + 1 := ⟨fuel' - 1, by omega⟩
      unfold openaiToolLoop
      rw [if_pos hgo, if_pos hgo]
      cases hstep : openaiToolStep raw rawLen ts with
      | stop ts' ds => rfl
      | next ts' ds =>
        obtain ⟨hsyn', hdone | hmore⟩ := toolStep_progress hsyn hstep
        · have hstop : (ts'.active && decide (ts'.parsePos < rawLen)) = false := by
            rw [hdone]
            rfl
          dsimp only
          rw [toolLoop_stop hstop, toolLoop_stop hstop]
        · dsimp only
          rw [ih hsyn' fuel' (by omega) (by omega)]
    · rw [Bool.not_eq_true] at hgo
      rw [toolLoop_stop hgo, toolLoop_stop hgo]

/-- What is parsed and sent of a whole text. -/
def toolRun (full : Bytes) (ts : OpenaiToolStream) : OpenaiToolStream × List Delta :=
  openaiToolStreamUpdate full full.length ts

theorem toolRun_stop {ts : OpenaiToolStream}
    (h : (ts.active && decide (ts.parsePos < full.length)) = false) : toolRun full ts = (ts, []) :=
  toolLoop_stop h _

/-- **One turn.** -/
theorem toolRun_eq {ts : OpenaiToolStream} (hsyn : ts.syn ∈ dsmlSyntaxes) (ha : ts.active = true)
    (hpos : ts.parsePos < full.length) :
    toolRun full ts =
      match openaiToolStep full full.length ts with
      | .stop ts' ds => (ts', ds)
      | .next ts' ds => ((toolRun full ts').1, ds ++ (toolRun full ts').2) := by
  have hgo : (ts.active && decide (ts.parsePos < full.length)) = true := by
    rw [ha, Bool.true_and]
    exact decide_eq_true hpos
  unfold toolRun openaiToolStreamUpdate
  rw [openaiToolLoop, if_pos hgo]
  cases hstep : openaiToolStep full full.length ts with
  | stop ts' ds => rfl
  | next ts' ds =>
    obtain ⟨hsyn', hdone | hmore⟩ := toolStep_progress hsyn hstep
    · have hstop : (ts'.active && decide (ts'.parsePos < full.length)) = false := by
        rw [hdone]
        rfl
      dsimp only
      rw [toolLoop_stop hstop, toolLoop_stop hstop]
    · dsimp only
      rw [toolLoop_fuel hsyn' full.length (full.length + 1) (by omega) (by omega)]

/-! ### Stopping at a cut -/

/-- Going on from `ts'` after `ds` is going on from `ts`. -/
structure Resumes (full : Bytes) (ts ts' : OpenaiToolStream) (ds : List Delta) : Prop where
  inv : ToolInv full ts'
  state : (toolRun full ts).1 = (toolRun full ts').1
  deltas : Same (toolRun full ts).2 (ds ++ (toolRun full ts').2)

theorem step_betweenInvokes {raw : Bytes} {rawLen : Nat} {ts : OpenaiToolStream}
    (h : ts.state = .betweenInvokes) :
    openaiToolStep raw rawLen ts = openaiToolBetweenInvokes raw rawLen (ts.skipSpace raw rawLen) := by
  unfold openaiToolStep
  rw [h]

theorem step_betweenParams {raw : Bytes} {rawLen : Nat} {ts : OpenaiToolStream}
    (h : ts.state = .betweenParams) :
    openaiToolStep raw rawLen ts = openaiToolBetweenParams raw rawLen (ts.skipSpace raw rawLen) := by
  unfold openaiToolStep
  rw [h]

theorem step_paramValue {raw : Bytes} {rawLen : Nat} {ts : OpenaiToolStream}
    (h : ts.state = .paramValue) :
    openaiToolStep raw rawLen ts = openaiToolParamValue raw rawLen ts := by
  unfold openaiToolStep
  rw [h]

/-- Behind the white space that has arrived, the stream is where it is in the text. -/
theorem skipSpace_agree {ts : OpenaiToolStream} (hn : n ≤ full.length) (hpos : ts.parsePos < n) :
    (ts.skipSpace (full.take n) n).parsePos ≤ n ∧
      ((ts.skipSpace (full.take n) n).parsePos < n →
        ts.skipSpace full full.length = ts.skipSpace (full.take n) n) := by
  have htake : n ≤ (full.take n).length := by
    rw [List.length_take]
    omega
  refine ⟨(skipSpace_bounds htake (Nat.le_of_lt hpos)).2, ?_⟩
  intro hlt
  exact congrArg (fun p => ({ ts with parsePos := p } : OpenaiToolStream))
    ((skipSpace_cut hn (Nat.le_of_lt hpos)).1 hlt)

/-- Waiting behind white space. -/
theorem resumes_wait {ts : OpenaiToolStream} (hn : n ≤ full.length) (hts : ToolInv full ts)
    (hst : ts.state = .betweenInvokes ∨ ts.state = .betweenParams) (ha : ts.active = true)
    (hpos : ts.parsePos < n) : Resumes full ts (ts.skipSpace (full.take n) n) [] := by
  obtain ⟨-, hgo⟩ := skipSpace_cut hn (Nat.le_of_lt hpos)
  have htake : n ≤ (full.take n).length := by
    rw [List.length_take]
    omega
  obtain ⟨hlb, hub⟩ := skipSpace_bounds htake (Nat.le_of_lt hpos)
  have hskip : (ts.skipSpace (full.take n) n).skipSpace full full.length =
      ts.skipSpace full full.length :=
    congrArg (fun p => ({ ts with parsePos := p } : OpenaiToolStream)) hgo
  have hsame : openaiToolStep full full.length (ts.skipSpace (full.take n) n) =
      openaiToolStep full full.length ts := by
    obtain hst | hst := hst
    · have hst' : (ts.skipSpace (full.take n) n).state = .betweenInvokes := hst
      rw [step_betweenInvokes hst, step_betweenInvokes hst', hskip]
    · have hst' : (ts.skipSpace (full.take n) n).state = .betweenParams := hst
      rw [step_betweenParams hst, step_betweenParams hst', hskip]
  have hinv : ToolInv full (ts.skipSpace (full.take n) n) := by
    refine ⟨hts.syn, fun h => ?_⟩
    have h' : ts.state = .paramValue := h
    obtain hst | hst := hst <;> rw [hst] at h' <;> exact absurd h' (by simp)
  have hrun : toolRun full ts = toolRun full (ts.skipSpace (full.take n) n) := by
    by_cases hlt : (ts.skipSpace (full.take n) n).parsePos < full.length
    · rw [toolRun_eq hts.syn ha (by omega), toolRun_eq hinv.syn ha hlt, hsame]
    -- everything that is left is white space
    · have hnf : n = full.length := by
        have : skipSpace (full.take n) n ts.parsePos ≤ n := hub
        have : ¬ skipSpace (full.take n) n ts.parsePos < full.length := hlt
        omega
      subst hnf
      rw [List.take_length] at hlt ⊢
      have hstop : toolRun full (ts.skipSpace full full.length) =
          (ts.skipSpace full full.length, []) := by
        apply toolRun_stop
        rw [Bool.and_eq_false_iff, decide_eq_false_iff_not]
        exact Or.inr hlt
      rw [hstop, toolRun_eq hts.syn ha hpos]
      obtain hst | hst := hst
      · rw [step_betweenInvokes hst, openaiToolBetweenInvokes, if_pos (by omega)]
      · rw [step_betweenParams hst, openaiToolBetweenParams, if_pos (by omega)]
  refine ⟨hinv, by rw [hrun], ?_⟩
  rw [hrun]
  exact Same.refl _

/-- A turn that ends the stream ends it on both texts. -/
theorem resumes_done {ts ts' : OpenaiToolStream} (hts : ToolInv full ts) (ha : ts.active = true)
    (hpos : ts.parsePos < full.length) (hts' : ToolInv full ts') (hdone : ts'.active = false)
    (hstep : openaiToolStep full full.length ts = .stop ts' []) : Resumes full ts ts' [] := by
  have hstop : toolRun full ts' = (ts', []) := by
    apply toolRun_stop
    rw [hdone]
    rfl
  have hrun : toolRun full ts = (ts', []) := by
    rw [toolRun_eq hts.syn ha hpos, hstep]
  refine ⟨hts', by rw [hrun, hstop], ?_⟩
  rw [hrun, hstop]
  exact Same.refl _

/-- How a turn on the part up to a cut relates to a turn on the text. -/
def StepCut (full : Bytes) (ts : OpenaiToolStream) : ToolStep → Prop
  | .stop ts' ds => Resumes full ts ts' ds
  | .next ts' ds => ToolInv full ts' ∧ openaiToolStep full full.length ts = .next ts' ds

/-- The byte behind a tag starts a character. -/
theorem boundary_after_tag (hfull : Lib.Valid full) {pos tagEnd : Nat}
    (h : findLitBounded full full.length pos (lit ">") = some tagEnd) :
    Lib.Boundary full (tagEnd + 1) := by
  unfold findLitBounded at h
  obtain ⟨j, hj, rfl⟩ := Option.map_eq_some_iff.mp h
  rw [slice_length_eq] at hj
  obtain ⟨-, hp, -⟩ := (Lib.findSub_eq_some_iff).mp hj
  rw [List.drop_drop] at hp
  have hget : full[pos + j]? = some '>'.toUInt8 := (Lib.prefix_drop_iff).mp hp 0 (by decide)
  exact (hfull.boundary_of_ascii hget (by decide)).2

theorem betweenInvokes_cut {ts : OpenaiToolStream} (hn : n ≤ full.length) (hts : ToolInv full ts)
    (hst : ts.state = .betweenInvokes) (ha : ts.active = true) (hpos : ts.parsePos < n) :
    StepCut full ts (openaiToolStep (full.take n) n ts) := by
  have hwait := resumes_wait hn hts (Or.inl hst) ha hpos
  obtain ⟨hub, heq⟩ := skipSpace_agree hn hpos
  have hinv : ∀ ts' : OpenaiToolStream, ts'.syn = ts.syn → ts'.state ≠ .paramValue →
      ToolInv full ts' := fun ts' h h' => ⟨h ▸ hts.syn, fun h'' => absurd h'' h'⟩
  have hlt : ts.parsePos < full.length := Nat.lt_of_lt_of_le hpos hn
  rw [step_betweenInvokes hst]
  have hsyn : (ts.skipSpace (full.take n) n).syn = ts.syn := rfl
  have hstep : openaiToolStep full full.length ts = _ := step_betweenInvokes hst
  generalize ts.skipSpace (full.take n) n = ts1 at *
  unfold openaiToolBetweenInvokes at hstep ⊢
  by_cases hend : n ≤ ts1.parsePos
  · rw [if_pos hend]
    exact hwait
  rw [if_neg hend]
  rw [heq (by omega), if_neg (by omega)] at hstep
  obtain ⟨h1, h2⟩ | ⟨h1, h2⟩ | ⟨h1, h2, h3, h4, h5⟩ :=
    markers_cut ts1.syn.toolCallsEnd ts1.syn.invokeStart hn hub
  -- the end of the block
  · rw [if_pos h1]
    rw [if_pos h2] at hstep
    exact resumes_done hts ha hlt (hinv _ hsyn (by simp)) rfl hstep
  -- a marker that may still arrive
  · rw [if_neg (by rw [h1]; simp), if_pos h2]
    exact hwait
  · rw [if_neg (by rw [h1]; simp), if_neg (by rw [h2]; simp)]
    rw [if_neg (by rw [h3]; simp), if_neg (by rw [h4]; simp), h5] at hstep
    by_cases hinvoke : rawFullLit (full.take n) n ts1.parsePos ts1.syn.invokeStart = true
    -- an invoke tag, if it has arrived
    · rw [if_pos hinvoke] at hstep ⊢
      unfold openaiToolStartInvoke at hstep ⊢
      cases htag : findLitBounded (full.take n) n ts1.parsePos (lit ">") with
      | none => exact hwait
      | some tagEnd =>
        obtain ⟨hfound, -, hfit⟩ := findLitBounded_cut (by decide) hn htag
        have hone : (lit ">").length = 1 := by decide
        rw [hfound] at hstep
        dsimp only at hstep ⊢
        rw [slice_take (by omega)]
        cases hname : dsmlAttr (slice full ts1.parsePos (tagEnd + 1)) (lit "name") with
        | none =>
          rw [hname] at hstep
          exact ⟨hinv _ hsyn (by simp [OpenaiToolStream.fail]), hstep⟩
        | some name =>
          rw [hname] at hstep
          exact ⟨hinv _ hsyn (by simp), hstep⟩
    -- anything else is an error
    · rw [if_neg hinvoke] at hstep ⊢
      exact resumes_done hts ha hlt (hinv _ hsyn (by simp [OpenaiToolStream.fail])) rfl hstep

theorem betweenParams_cut (hfull : Lib.Valid full) {ts : OpenaiToolStream} (hn : n ≤ full.length)
    (hts : ToolInv full ts) (hst : ts.state = .betweenParams) (ha : ts.active = true)
    (hpos : ts.parsePos < n) : StepCut full ts (openaiToolStep (full.take n) n ts) := by
  have hwait := resumes_wait hn hts (Or.inr hst) ha hpos
  obtain ⟨hub, heq⟩ := skipSpace_agree hn hpos
  have hinv : ∀ ts' : OpenaiToolStream, ts'.syn = ts.syn → ts'.state ≠ .paramValue →
      ToolInv full ts' := fun ts' h h' => ⟨h ▸ hts.syn, fun h'' => absurd h'' h'⟩
  have hlt : ts.parsePos < full.length := Nat.lt_of_lt_of_le hpos hn
  rw [step_betweenParams hst]
  have hsyn : (ts.skipSpace (full.take n) n).syn = ts.syn := rfl
  have hstep : openaiToolStep full full.length ts = _ := step_betweenParams hst
  generalize ts.skipSpace (full.take n) n = ts1 at *
  unfold openaiToolBetweenParams at hstep ⊢
  by_cases hend : n ≤ ts1.parsePos
  · rw [if_pos hend]
    exact hwait
  rw [if_neg hend]
  rw [heq (by omega), if_neg (by omega)] at hstep
  obtain ⟨h1, h2⟩ | ⟨h1, h2⟩ | ⟨h1, h2, h3, h4, h5⟩ :=
    markers_cut ts1.syn.invokeEnd ts1.syn.paramStart hn hub
  -- the end of the call
  · rw [if_pos h1]
    rw [if_pos h2] at hstep
    exact ⟨hinv _ hsyn (by simp), hstep⟩
  -- a marker that may still arrive
  · rw [if_neg (by rw [h1]; simp), if_pos h2]
    exact hwait
  · rw [if_neg (by rw [h1]; simp), if_neg (by rw [h2]; simp)]
    rw [if_neg (by rw [h3]; simp), if_neg (by rw [h4]; simp), h5] at hstep
    by_cases hparam : rawFullLit (full.take n) n ts1.parsePos ts1.syn.paramStart = true
    -- a parameter tag, if it has arrived
    · rw [if_pos hparam] at hstep ⊢
      unfold openaiToolStartParam at hstep ⊢
      cases htag : findLitBounded (full.take n) n ts1.parsePos (lit ">") with
      | none => exact hwait
      | some tagEnd =>
        obtain ⟨hfound, -, hfit⟩ := findLitBounded_cut (by decide) hn htag
        have hone : (lit ">").length = 1 := by decide
        have hvalue := boundary_after_tag hfull hfound
        rw [hfound] at hstep
        dsimp only at hstep ⊢
        rw [slice_take (by omega)]
        cases hname : dsmlAttr (slice full ts1.parsePos (tagEnd + 1)) (lit "name") with
        | none =>
          rw [hname] at hstep
          exact ⟨hinv _ hsyn (by simp [OpenaiToolStream.fail]), hstep⟩
        | some name =>
          rw [hname] at hstep
          cases hstring : dsmlAttr (slice full ts1.parsePos (tagEnd + 1)) (lit "string") with
          | none =>
            rw [hstring] at hstep
            exact ⟨hinv _ hsyn (by simp [OpenaiToolStream.fail]), hstep⟩
          | some isString =>
            rw [hstring] at hstep
            exact ⟨⟨hsyn ▸ hts.syn, fun _ => hvalue⟩, hstep⟩
    -- anything else is an error
    · rw [if_neg hparam] at hstep ⊢
      exact resumes_done hts ha hlt (hinv _ hsyn (by simp [OpenaiToolStream.fail])) rfl hstep

/-- The part of a value that is sent before its end is known. -/
theorem emitValue_slice {ts : OpenaiToolStream} (hnul : NulFree full) (hts : ToolInv full ts)
    (hpos : ts.parsePos < n) (hn : n ≤ full.length) {cut e : Nat}
    (hcut : cut = toolParamValueStreamSafeLen (full.take n) ts.parsePos n ts.syn.paramEnd
      ts.paramIsString) (hle : ts.parsePos ≤ cut) (hce : cut ≤ e) :
    Same (ts.emitValue (slice full ts.parsePos e))
      (ts.emitValue (slice full ts.parsePos cut) ++ ts.emitValue (slice full cut e)) := by
  have hpe := headed_paramEnd hts.syn
  have hcn : cut ≤ n := by
    rw [hcut]
    exact safeLen_le hpe ts.paramIsString (Nat.le_of_lt hpos) (by rw [List.length_take]; omega)
  rw [slice_append hle hce]
  apply ts.emitValue_append (hnul.slice _ _) (hnul.slice _ _)
  intro hstring j hj ent hent hp
  rw [slice_length (by omega)] at hj ⊢
  rw [← slice_append hle hce] at hp
  -- the entity stands in the text
  have hfit := hp.length_le
  have hp' : ent <+: full.drop (ts.parsePos + j) := by
    have hpre : (slice full ts.parsePos e).drop j <+: full.drop (ts.parsePos + j) := by
      unfold slice
      rw [List.drop_drop, List.drop_take]
      exact List.take_prefix _ _
    exact hp.trans hpre
  rw [hstring] at hcut
  have := safeLen_entity hpe (Nat.le_of_lt hpos) hn hent (Nat.le_add_right ts.parsePos j) hp'
    (by rw [← hcut]; omega)
  rw [← hcut] at this
  omega

theorem paramValue_cut (hfull : Lib.Valid full) (hnul : NulFree full) {ts : OpenaiToolStream}
    (hn : n ≤ full.length) (hts : ToolInv full ts) (hst : ts.state = .paramValue)
    (ha : ts.active = true) (hpos : ts.parsePos < n) :
    StepCut full ts (openaiToolStep (full.take n) n ts) := by
  have hpe := headed_paramEnd hts.syn
  have hlt : ts.parsePos < full.length := Nat.lt_of_lt_of_le hpos hn
  have hstep : openaiToolStep full full.length ts = _ := step_paramValue hst
  rw [step_paramValue hst]
  unfold openaiToolParamValue at hstep ⊢
  cases hend : findLitBounded (full.take n) n ts.parsePos ts.syn.paramEnd with
  | some valueEnd =>
    -- the end tag has arrived
    obtain ⟨hfound, -, hfit⟩ := findLitBounded_cut hpe.length_pos hn hend
    rw [hfound] at hstep
    refine ⟨⟨hts.syn, fun h => absurd h (by simp)⟩, ?_⟩
    dsimp only at hstep ⊢
    rw [slice_take (by omega)]
    exact hstep
  | none =>
    dsimp only
    -- what is sent now ends at `cut`
    generalize hcut : toolParamValueStreamSafeLen (full.take n) ts.parsePos n ts.syn.paramEnd
      ts.paramIsString = cut
    have hle : ts.parsePos ≤ cut := by
      rw [← hcut]
      exact (safeLen_bounds hpe ts.paramIsString (Nat.le_of_lt hpos)
        (by rw [List.length_take]; omega)).1
    have hcn : cut ≤ n := by
      rw [← hcut]
      exact safeLen_le hpe ts.paramIsString (Nat.le_of_lt hpos) (by rw [List.length_take]; omega)
    have hstop : (if ts.parsePos < cut then
        ToolStep.stop { ts with parsePos := cut }
          (ts.emitValue (slice (full.take n) ts.parsePos cut))
        else .stop ts []) =
        .stop { ts with parsePos := cut } (ts.emitValue (slice full ts.parsePos cut)) := by
      rw [slice_take hcn]
      by_cases hmoved : ts.parsePos < cut
      · rw [if_pos hmoved]
      · obtain rfl : cut = ts.parsePos := by omega
        rw [if_neg hmoved, slice_self_le (Nat.le_refl _), ts.emitValue_nil]
    rw [hstop]
    obtain ⟨hbound, hmono, hrestart⟩ :=
      safeLen_restart hpe hfull ts.paramIsString (hts.boundary hst) (Nat.le_of_lt hpos) hn
    rw [hcut] at hbound hmono hrestart
    have hinv : ToolInv full { ts with parsePos := cut } := ⟨hts.syn, fun _ => hbound⟩
    have hst' : ({ ts with parsePos := cut } : OpenaiToolStream).state = .paramValue := hst
    have hstep' : openaiToolStep full full.length { ts with parsePos := cut } = _ :=
      step_paramValue hst'
    unfold openaiToolParamValue at hstep'
    dsimp only at hstep'
    cases hfind : findLitBounded full full.length ts.parsePos ts.syn.paramEnd with
    | some e =>
      -- the end tag is behind the cut
      have hfind' := hfind
      unfold findLitBounded at hfind hend
      obtain ⟨i, hi, rfl⟩ := Option.map_eq_some_iff.mp hfind
      rw [slice_length_eq] at hi
      rw [Option.map_eq_none_iff] at hend
      have hraw : slice (full.take n) ts.parsePos n = (full.take n).drop ts.parsePos := by
        unfold slice
        rw [List.take_take, Nat.min_self]
      rw [hraw] at hend
      have hbehind := Lib.findSub_take_none hpe.length_pos hn hend hi
      obtain ⟨-, hocc, -⟩ := (Lib.findSub_eq_some_iff).mp hi
      rw [List.drop_drop] at hocc
      have hce : cut ≤ ts.parsePos + i := by
        rw [← hcut]
        exact safeLen_le_paramEnd hpe ts.paramIsString (Nat.le_of_lt hpos) hn
          (Nat.le_add_right _ _) hocc hbehind
      have hfit := Lib.findSub_length_le hi
      rw [List.length_drop] at hfit
      have hagain : findLitBounded full full.length cut ts.syn.paramEnd =
          some (ts.parsePos + i) := by
        unfold findLitBounded
        have hdrop : full.drop cut = (full.drop ts.parsePos).drop (cut - ts.parsePos) := by
          rw [List.drop_drop, show ts.parsePos + (cut - ts.parsePos) = cut by omega]
        rw [slice_length_eq, hdrop, Lib.findSub_drop_some hi (by omega)]
        show some (cut + (i - (cut - ts.parsePos))) = _
        rw [show cut + (i - (cut - ts.parsePos)) = ts.parsePos + i by omega]
      rw [hfind'] at hstep
      rw [hagain] at hstep'
      have hpepos := hpe.length_pos
      have hvalue : ∀ a, a ≤ ts.parsePos + i →
          (if a < ts.parsePos + i then ts.emitValue (slice full a (ts.parsePos + i)) else []) =
            ts.emitValue (slice full a (ts.parsePos + i)) := by
        intro a hai
        by_cases hlt' : a < ts.parsePos + i
        · rw [if_pos hlt']
        · rw [if_neg hlt', slice_self_le (by omega), ts.emitValue_nil]
      -- the two turns end in one state
      obtain ⟨next, hnext⟩ : ∃ next : OpenaiToolStream, next =
          { ts with
            parsePos := ts.parsePos + i + ts.syn.paramEnd.length
            state := .betweenParams } := ⟨_, rfl⟩
      have hrun : toolRun full ts = ((toolRun full next).1,
          ts.emitValue (slice full ts.parsePos (ts.parsePos + i)) ++
            (if ts.paramIsString then argsDelta ts.index (lit "\"") else []) ++
            (toolRun full next).2) := by
        rw [toolRun_eq hts.syn ha hlt, hstep, ← hvalue _ (Nat.le_add_right _ _), hnext]
        rfl
      have hrun' : toolRun full { ts with parsePos := cut } = ((toolRun full next).1,
          ts.emitValue (slice full cut (ts.parsePos + i)) ++
            (if ts.paramIsString then argsDelta ts.index (lit "\"") else []) ++
            (toolRun full next).2) := by
        rw [toolRun_eq hinv.syn ha (show cut < full.length by omega), hstep', ← hvalue _ hce,
          hnext]
        rfl
      refine ⟨hinv, by rw [hrun, hrun'], ?_⟩
      rw [hrun, hrun']
      have hsame := emitValue_slice hnul hts hpos hn hcut.symm hle hce
      have happend := hsame.append (Same.refl
        ((if ts.paramIsString then argsDelta ts.index (lit "\"") else []) ++ (toolRun full next).2))
      simp only [List.append_assoc] at happend ⊢
      exact happend
    | none =>
      -- the value never ends
      have hagain : findLitBounded full full.length cut ts.syn.paramEnd = none := by
        unfold findLitBounded at hfind ⊢
        rw [slice_length_eq, Option.map_eq_none_iff] at hfind ⊢
        have hdrop : full.drop cut = (full.drop ts.parsePos).drop (cut - ts.parsePos) := by
          rw [List.drop_drop, show ts.parsePos + (cut - ts.parsePos) = cut by omega]
        rw [hdrop]
        exact Lib.findSub_drop_none hpe.length_pos hfind _
      rw [hfind] at hstep
      rw [hagain] at hstep'
      dsimp only at hstep hstep'
      rw [hrestart] at hstep'
      have hlast : toolParamValueStreamSafeLen full ts.parsePos full.length ts.syn.paramEnd
          ts.paramIsString ≤ full.length :=
        safeLen_le hpe ts.paramIsString (Nat.le_of_lt hlt) (Nat.le_refl _)
      generalize toolParamValueStreamSafeLen full ts.parsePos full.length ts.syn.paramEnd
        ts.paramIsString = last at *
      have hrun : toolRun full ts =
          ({ ts with parsePos := last }, ts.emitValue (slice full ts.parsePos last)) := by
        rw [toolRun_eq hts.syn ha hlt, hstep]
        by_cases hmoved : ts.parsePos < last
        · rw [if_pos hmoved]
        · obtain rfl : last = ts.parsePos := by omega
          rw [if_neg hmoved, slice_self_le (Nat.le_refl _), ts.emitValue_nil]
      have hrun' : toolRun full { ts with parsePos := cut } =
          ({ ts with parsePos := last }, ts.emitValue (slice full cut last)) := by
        by_cases hlt' : cut < full.length
        · rw [toolRun_eq hinv.syn ha hlt', hstep']
          by_cases hmoved : cut < last
          · rw [if_pos hmoved]
            rfl
          · obtain rfl : last = cut := by omega
            rw [if_neg hmoved, slice_self_le (Nat.le_refl _), ts.emitValue_nil]
        · obtain rfl : last = cut := by omega
          rw [slice_self_le (Nat.le_refl _), ts.emitValue_nil]
          apply toolRun_stop
          rw [Bool.and_eq_false_iff, decide_eq_false_iff_not]
          exact Or.inr hlt'
      refine ⟨hinv, by rw [hrun, hrun'], ?_⟩
      rw [hrun, hrun']
      exact emitValue_slice hnul hts hpos hn hcut.symm hle hmono

/-- **One turn at a cut.** -/
theorem toolStep_cut (hfull : Lib.Valid full) (hnul : NulFree full) {ts : OpenaiToolStream}
    (hn : n ≤ full.length) (hts : ToolInv full ts) (ha : ts.active = true)
    (hpos : ts.parsePos < n) : StepCut full ts (openaiToolStep (full.take n) n ts) := by
  have hstuck : ∀ raw rawLen, ts.state = .done ∨ ts.state = .error →
      openaiToolStep raw rawLen ts = .stop ts [] := by
    intro raw rawLen h
    unfold openaiToolStep
    obtain h | h := h <;> rw [h]
  cases hst : ts.state with
  | betweenInvokes => exact betweenInvokes_cut hn hts hst ha hpos
  | betweenParams => exact betweenParams_cut hfull hn hts hst ha hpos
  | paramValue => exact paramValue_cut hfull hnul hn hts hst ha hpos
  | done =>
    rw [hstuck _ _ (Or.inl hst)]
    exact ⟨hts, rfl, Same.refl _⟩
  | error =>
    rw [hstuck _ _ (Or.inr hst)]
    exact ⟨hts, rfl, Same.refl _⟩

/-- **The loop at a cut.** Parsing what has arrived and going on is parsing the text. -/
theorem toolRun_cut (hfull : Lib.Valid full) (hnul : NulFree full) {ts : OpenaiToolStream}
    (hn : n ≤ full.length) (hts : ToolInv full ts) :
    Resumes full ts (openaiToolStreamUpdate (full.take n) n ts).1
      (openaiToolStreamUpdate (full.take n) n ts).2 := by
  unfold openaiToolStreamUpdate
  generalize n + 1 = fuel
  induction fuel generalizing ts with
  | zero => exact ⟨hts, rfl, Same.refl _⟩
  | succ fuel ih =>
    by_cases hgo : (ts.active && decide (ts.parsePos < n)) = true
    · obtain ⟨ha, hlt⟩ := Bool.and_eq_true_iff.mp hgo
      have hpos := of_decide_eq_true hlt
      have hcut := toolStep_cut hfull hnul hn hts ha hpos
      unfold openaiToolLoop
      rw [if_pos hgo]
      cases hstep : openaiToolStep (full.take n) n ts with
      | stop ts' ds =>
        rw [hstep] at hcut
        exact hcut
      | next ts' ds =>
        rw [hstep] at hcut
        obtain ⟨hts', hfullstep⟩ := hcut
        have hrest := ih hts'
        have hrun := toolRun_eq hts.syn ha (Nat.lt_of_lt_of_le hpos hn)
        rw [hfullstep] at hrun
        dsimp only at hrun ⊢
        refine ⟨hrest.inv, ?_, ?_⟩
        · rw [hrun]
          exact hrest.state
        · rw [hrun, List.append_assoc]
          exact (Same.refl ds).append hrest.deltas
    · rw [Bool.not_eq_true] at hgo
      rw [toolLoop_stop hgo]
      exact ⟨hts, rfl, Same.refl _⟩

end DS4.Server
