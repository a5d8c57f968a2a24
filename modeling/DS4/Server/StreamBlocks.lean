import DS4.Server.StreamUtf8

namespace DS4.Server

/-!
# Server — whole characters in the live streams

* `StreamInv` — the stream stands between two characters.
* `StreamApi.sseStreamUpdate_keeps` — **an update** sends valid text, whatever has arrived.
* `StreamApi.held_spec` — it holds back at most three bytes.
* `StreamApi.Awaits` — the stream stands before bytes it has held; `StreamApi.sseStreamUpdate_awaits`
  — these bytes begin a later delta.
-/

variable {full : Bytes} {n rawLen : Nat}

/-! ### The stream -/

/-- The stream stands between two characters. -/
structure StreamInv (full : Bytes) (st : OpenaiStream) : Prop where
  boundary : Lib.Boundary full st.emitPos
  tool : ToolInv full st.tool

theorem streamInv_start (hfull : Lib.Valid full) (think : Bool) :
    StreamInv full (openaiStreamStart think) :=
  ⟨Lib.boundary_zero hfull, ⟨by simp [openaiStreamStart, OpenaiToolStream.zero, dsmlSyntaxes],
    fun h => absurd h (by simp [openaiStreamStart, OpenaiToolStream.zero])⟩⟩

/-- The markers that the stream looks for start with `<`. -/
theorem marker_heads : (∀ pat ∈ [TOOL_CALLS_START, TOOL_CALLS_START_SHORT, TOOL_CALLS_START_PLAIN],
      pat.head? = some '<'.toUInt8) ∧
    THINK_END.head? = some '<'.toUInt8 ∧ THINK_END[7]? = some '>'.toUInt8 ∧
      THINK_END.length = 8 ∧ THINK_START[6]? = some '>'.toUInt8 ∧ THINK_START.length = 7 := by
  decide +kernel

/-- A tool block starts between two characters. -/
theorem toolStart_boundary (hfull : Lib.Valid full) {pos i : Nat}
    (h : findAnyToolStart ((full.take n).drop pos) = some i) :
    full[pos + i]? = some '<'.toUInt8 ∧ Lib.Boundary full (pos + i) ∧ pos + i < n := by
  have hmem := earliest_mem h
  obtain ⟨pat, hpat, hfind⟩ : ∃ pat ∈ [TOOL_CALLS_START, TOOL_CALLS_START_SHORT,
      TOOL_CALLS_START_PLAIN], strstr ((full.take n).drop pos) pat = some i := by
    simp only [List.mem_cons, List.not_mem_nil, or_false] at hmem
    rcases hmem with hm | hm | hm
    · exact ⟨_, by simp, hm.symm⟩
    · exact ⟨_, by simp, hm.symm⟩
    · exact ⟨_, by simp, hm.symm⟩
  have hp := strstr_prefix hfind
  have hhead := (marker_heads).1 pat hpat
  rw [List.head?_eq_getElem?] at hhead
  have hlen : 0 < pat.length := by
    by_contra hzero
    rw [List.getElem?_eq_none (by omega)] at hhead
    exact absurd hhead (by simp)
  have hget := (Lib.prefix_drop_iff).mp hp 0 hlen
  rw [hhead, Nat.add_zero] at hget
  have hlt : pos + i < (full.take n).length := (List.getElem?_eq_some_iff.mp hget).1
  rw [List.length_take] at hlt
  have hbyte := getElem?_of_take hget
  exact ⟨hbyte, (hfull.boundary_of_ascii hbyte (by decide)).1, by omega⟩

/-- The end of the reasoning stands between two characters. -/
theorem thinkEnd_boundary (hfull : Lib.Valid full) {pos i : Nat}
    (h : strstr ((full.take n).drop pos) THINK_END = some i) :
    full[pos + i]? = some '<'.toUInt8 ∧ Lib.Boundary full (pos + i) ∧
      Lib.Boundary full (pos + i + THINK_END.length) ∧ pos + i ≤ n := by
  have hp := strstr_prefix h
  obtain ⟨-, hhead, hlast, hlen, -⟩ := marker_heads
  rw [List.head?_eq_getElem?] at hhead
  have hfirst := (Lib.prefix_drop_iff).mp hp 0 (by omega)
  rw [hhead, Nat.add_zero] at hfirst
  have hend := (Lib.prefix_drop_iff).mp hp 7 (by omega)
  rw [hlast] at hend
  have hlt : pos + i < (full.take n).length := (List.getElem?_eq_some_iff.mp hfirst).1
  rw [List.length_take] at hlt
  have hbyte := getElem?_of_take hfirst
  refine ⟨hbyte, (hfull.boundary_of_ascii hbyte (by decide)).1, ?_, by omega⟩
  rw [hlen]
  exact (hfull.boundary_of_ascii (getElem?_of_take hend) (by decide)).2

/-- The check of `<think>` leaves the stream between two characters. -/
theorem checkThinkPrefix_spec (hfull : Lib.Valid full) {st st1 : OpenaiStream} {final : Bool}
    (hst : StreamInv full st) (h : checkThinkPrefix (full.take n) rawLen st final = some st1) :
    StreamInv full st1 ∧ st1.checkedThinkPrefix = true ∧ st1.mode = st.mode ∧
      st1.active = st.active ∧ (st.checkedThinkPrefix = true → st1 = st) := by
  unfold checkThinkPrefix at h
  split at h
  · rename_i hc
    obtain rfl := Option.some.inj h
    exact ⟨hst, hc, rfl, rfl, fun _ => rfl⟩
  rename_i hc
  split at h
  · exact absurd h (by simp)
  split at h
  · rename_i hopen
    obtain rfl := Option.some.inj h
    refine ⟨⟨?_, hst.tool⟩, rfl, rfl, rfl, fun hc' => absurd hc' hc⟩
    -- `<think>` stands first
    obtain ⟨-, -, -, -, hlast, hlen⟩ := marker_heads
    have hp := hopen.2
    rw [List.isPrefixOf_iff_prefix] at hp
    have hp0 : THINK_START <+: (full.take n).drop 0 := by
      rw [List.drop_zero]
      exact hp
    have hget := (Lib.prefix_drop_iff).mp hp0 6 (by omega)
    rw [hlast, Nat.zero_add] at hget
    show Lib.Boundary full THINK_START.length
    rw [hlen]
    exact (hfull.boundary_of_ascii (getElem?_of_take hget) (by decide)).2
  · obtain rfl := Option.some.inj h
    exact ⟨⟨hst.boundary, hst.tool⟩, rfl, rfl, rfl, fun hc' => absurd hc' hc⟩

/-! ### White space and markers that may still arrive -/

theorem isspace_ascii {c : UInt8} (h : isspace c = true) : c.toNat < 0x80 := by
  unfold isspace at h
  rw [Bool.or_eq_true, beq_iff_eq, Bool.and_eq_true, decide_eq_true_eq, decide_eq_true_eq] at h
  rcases h with rfl | ⟨-, h⟩
  · decide
  · rw [UInt8.le_iff_toNat_le] at h
    exact Nat.lt_of_le_of_lt h (by decide)

/-- White space is trimmed to a boundary, and not behind a character that is none. -/
theorem trimToolSeparatorWs_spec (hfull : Lib.Valid full) {start limit : Nat} (h : start ≤ limit)
    (hn : limit ≤ n) :
    let cut := trimToolSeparatorWs (full.take n) start limit
    start ≤ cut ∧ cut ≤ limit ∧ (Lib.Boundary full limit → Lib.Boundary full cut) ∧
      ((∀ c, full[start]? = some c → 0x80 ≤ c.toNat) → start < limit → limit ≤ full.length →
        start < cut) := by
  induction limit with
  | zero => exact ⟨h, Nat.le_refl _, id, fun _ hlt _ => hlt⟩
  | succ limit ih =>
    unfold trimToolSeparatorWs
    dsimp only
    by_cases htrim : start < limit + 1 ∧ isspace ((full.take n).getD limit 0) = true
    · rw [if_pos htrim]
      obtain ⟨hlt, hspace⟩ := htrim
      obtain ⟨h1, h2, h3, h4⟩ := ih (by omega) (by omega)
      rw [List.getD_eq_getElem?_getD, Lib.getElem?_take_lt (by omega)] at hspace
      refine ⟨h1, Nat.le_succ_of_le h2, fun hb => h3 ?_, fun hhigh _ hle => ?_⟩
      · have hltf : limit < full.length := hb.le
        have hget : full[limit]? = some full[limit] := List.getElem?_eq_getElem hltf
        rw [hget] at hspace
        exact (hfull.boundary_of_ascii hget (isspace_ascii hspace)).1
      · -- the byte at `start` is no white space
        have hne : start ≠ limit := by
          rintro rfl
          have hget : full[start]? = some full[start] := List.getElem?_eq_getElem (by omega)
          rw [hget] at hspace
          have hge := hhigh _ hget
          have hlt := isspace_ascii hspace
          rw [Option.getD_some] at hlt
          omega
        exact h4 hhigh (by omega) (by omega)
    · rw [if_neg htrim]
      exact ⟨h, Nat.le_refl _, id, fun _ hlt _ => hlt⟩

theorem textHoldLimit_bounds (hfull : Lib.Valid full) {start : Nat} (h : start ≤ rawLen)
    (hlen : rawLen ≤ n) :
    start ≤ textHoldLimit (full.take n) start rawLen ∧
      textHoldLimit (full.take n) start rawLen ≤ rawLen := by
  obtain ⟨h1, h2, -, -⟩ := trimToolSeparatorWs_spec hfull h hlen
  unfold textHoldLimit
  dsimp only
  cases hmark : Lib.lastIdx '<'.toUInt8 (full.take n)
      (if 80 < rawLen - start then rawLen - 80 else start) rawLen with
  | none =>
    obtain ⟨h3, h4, -, -⟩ := trimToolSeparatorWs_spec hfull h1 (Nat.le_trans h2 hlen)
    exact ⟨h3, Nat.le_trans h4 h2⟩
  | some marker =>
    obtain ⟨hscan, -⟩ := Lib.lastIdx_some hmark
    have hge : start ≤ marker := by
      split at hscan <;> omega
    dsimp only
    obtain ⟨h3, h4, -, -⟩ := trimToolSeparatorWs_spec hfull
      (Nat.le_min.mpr ⟨hge, h1⟩) (Nat.le_trans (Nat.le_trans (Nat.min_le_right _ _) h2) hlen)
    exact ⟨h3, Nat.le_trans h4 (Nat.le_trans (Nat.min_le_right _ _) h2)⟩

/-- Where a tool block starts, the text before it is sent without the white space. -/
theorem textStreamSafeLimit_tool {raw : Bytes} {start i : Nat} {hasTools : Bool} (final : Bool)
    (hlt : start < rawLen)
    (htool : (if hasTools then findAnyToolStart (raw.drop start) else none) = some i) :
    textStreamSafeLimit raw start rawLen hasTools final =
      trimToolSeparatorWs raw start (start + i) := by
  unfold textStreamSafeLimit
  rw [if_neg (Nat.not_le.mpr hlt), htool]

/-- The limit of a text without a tool block, up to an incomplete character. -/
def textLimit (raw : Bytes) (start rawLen : Nat) (hasTools final : Bool) : Nat :=
  if hasTools && !final then textHoldLimit raw start rawLen else rawLen

theorem textStreamSafeLimit_none {raw : Bytes} {start : Nat} {hasTools final : Bool}
    (hlt : start < rawLen)
    (htool : (if hasTools then findAnyToolStart (raw.drop start) else none) = none) :
    textStreamSafeLimit raw start rawLen hasTools final =
      utf8StreamSafeLen raw start (textLimit raw start rawLen hasTools final) final := by
  unfold textStreamSafeLimit textLimit
  rw [if_neg (Nat.not_le.mpr hlt), htool]
  dsimp only
  by_cases hhold : (hasTools && !final) = true
  · rw [if_pos hhold, if_pos hhold]
    have hfin : final = false := by
      rw [Bool.and_eq_true, Bool.not_eq_true'] at hhold
      exact hhold.2
    rw [hfin]
    rfl
  · rw [if_neg hhold, if_neg hhold]

theorem textLimit_bounds (hfull : Lib.Valid full) {start : Nat} (h : start ≤ rawLen) (hlen : rawLen ≤ n)
    (hasTools final : Bool) :
    start ≤ textLimit (full.take n) start rawLen hasTools final ∧
      textLimit (full.take n) start rawLen hasTools final ≤ rawLen := by
  unfold textLimit
  split
  · exact textHoldLimit_bounds hfull h hlen
  · exact ⟨h, Nat.le_refl _⟩

/-- The final limit is the end of the text. -/
theorem textLimit_final (raw : Bytes) (start rawLen : Nat) (hasTools : Bool) :
    textLimit raw start rawLen hasTools true = rawLen := by
  unfold textLimit
  rw [Bool.not_true, Bool.and_false]
  rfl

theorem utf8StreamSafeLen_final (s : Bytes) (start limit : Nat) :
    utf8StreamSafeLen s start limit true = limit := by
  unfold utf8StreamSafeLen
  rw [if_pos (Or.inl rfl)]

/-- **Text** is sent up to a boundary. -/
theorem textStreamSafeLimit_boundary (hfull : Lib.Valid full) (hn : n ≤ full.length)
    (hlen : rawLen ≤ n) {start : Nat} (hstart : Lib.Boundary full start) {hasTools final : Bool}
    (hfinal : final = true → Lib.Boundary full rawLen) (hlt : start < rawLen) :
    Lib.Boundary full (textStreamSafeLimit (full.take n) start rawLen hasTools final) ∧
      textStreamSafeLimit (full.take n) start rawLen hasTools final ≤ n := by
  cases htool : (if hasTools then findAnyToolStart ((full.take n).drop start) else none) with
  | some i =>
    rw [textStreamSafeLimit_tool final hlt htool]
    have hfind : findAnyToolStart ((full.take n).drop start) = some i := by
      split at htool
      · exact htool
      · exact absurd htool (by simp)
    obtain ⟨-, hbound, hin⟩ := toolStart_boundary hfull hfind
    obtain ⟨-, hle, hb, -⟩ := trimToolSeparatorWs_spec hfull (Nat.le_add_right start i) (Nat.le_of_lt hin)
    exact ⟨hb hbound, Nat.le_trans hle (Nat.le_of_lt hin)⟩
  | none =>
    rw [textStreamSafeLimit_none hlt htool]
    obtain ⟨hge, hle⟩ := textLimit_bounds hfull (Nat.le_of_lt hlt) hlen hasTools final
    cases final with
    | true =>
      rw [utf8StreamSafeLen_final, textLimit_final]
      exact ⟨hfinal rfl, hlen⟩
    | false =>
      obtain ⟨hcut, hcl, -, -⟩ := utf8StreamSafeLen_held hfull hn hstart (Nat.le_trans hle hlen)
      exact ⟨(hcut hge).1, Nat.le_trans hcl (Nat.le_trans hle hlen)⟩

theorem utf8StreamSafeLen_of_le {s : Bytes} {start limit : Nat} (h : limit ≤ start) (final : Bool) :
    utf8StreamSafeLen s start limit final = limit := by
  unfold utf8StreamSafeLen
  rw [if_pos (Or.inr h)]

namespace StreamApi

variable (api : StreamApi) {st : OpenaiStream} {hasTools final : Bool}

/-! ### What an update sends -/

/-- A limit in front of the stream is inside the text. -/
theorem reasoningLimit_le {start : Nat} (h : start < reasoningLimit start rawLen) :
    reasoningLimit start rawLen ≤ rawLen := by
  unfold reasoningLimit at h ⊢
  split at h
  · rename_i hlt
    rw [if_pos hlt]
    exact Nat.sub_le _ _
  · exact absurd h (Nat.lt_irrefl _)

theorem valid_fragment {delta : Bytes → Delta} (hdelta : ∀ t, (delta t).text = t)
    (hst : StreamInv full st) {limit : Nat} (hlimit : Lib.Boundary full limit) (hn : limit ≤ n) :
    ValidDeltas (api.fragment (full.take n) delta st limit) := by
  unfold fragment
  split
  · refine validDeltas_cons.mpr ⟨?_, validDeltas_nil⟩
    rw [hdelta]
    exact api.out_valid _ (valid_slice hst.boundary hlimit hn)
  · exact validDeltas_nil

theorem valid_reasoningFragment (hst : StreamInv full st) {limit : Nat}
    (hlimit : Lib.Boundary full limit) (hn : limit ≤ n) :
    ValidDeltas (api.reasoningFragment (full.take n) st limit) := by
  unfold reasoningFragment
  split
  · exact api.valid_fragment (fun _ => rfl) hst hlimit hn
  · exact validDeltas_nil

/-- Nothing is sent up to a limit that is not in front. -/
theorem reasoningFragment_nil {raw : Bytes} {limit : Nat} (h : limit ≤ st.emitPos) :
    api.reasoningFragment raw st limit = [] := by
  unfold reasoningFragment fragment
  rw [if_neg (Nat.not_lt.mpr h), ite_self]

theorem fragment_nil {raw : Bytes} {delta : Bytes → Delta} {limit : Nat} (h : limit ≤ st.emitPos) :
    api.fragment raw delta st limit = [] := by
  unfold fragment
  rw [if_neg (Nat.not_lt.mpr h)]

/-- The larger of two boundaries. -/
theorem boundary_max {i j : Nat} (hi : Lib.Boundary full i) (hj : i < j → Lib.Boundary full j) :
    Lib.Boundary full (max i j) := by
  rcases Nat.lt_or_ge i j with hlt | hge
  · rw [Nat.max_eq_right (Nat.le_of_lt hlt)]
    exact hj hlt
  · rw [Nat.max_eq_left hge]
    exact hi

/-- **The reasoning block.** -/
theorem reasoningUpdate_keeps (hfull : Lib.Valid full) (hn : n ≤ full.length) (hlen : rawLen ≤ n)
    (hst : StreamInv full st) (hfinal : final = true → Lib.Boundary full rawLen) :
    StreamInv full (api.reasoningUpdate (full.take n) rawLen st final).1 ∧
      ValidDeltas (api.reasoningUpdate (full.take n) rawLen st final).2 := by
  unfold reasoningUpdate
  cases hcheck : checkThinkPrefix (full.take n) rawLen st final with
  | none => exact ⟨hst, validDeltas_nil⟩
  | some st1 =>
    obtain ⟨hst1, -, -, -, -⟩ := checkThinkPrefix_spec hfull hst hcheck
    dsimp only
    cases hclose : strstr ((full.take n).drop st1.emitPos) THINK_END with
    | some i =>
      obtain ⟨-, hstop, hbehind, hin⟩ := thinkEnd_boundary hfull hclose
      exact ⟨⟨hbehind, hst1.tool⟩, api.valid_reasoningFragment hst1 hstop hin⟩
    | none =>
      dsimp only
      split
      · rename_i hfin
        have hend := hfinal hfin
        exact ⟨⟨boundary_max hst1.boundary fun _ => hend, hst1.tool⟩,
          api.valid_reasoningFragment hst1 hend hlen⟩
      · -- the last seven bytes may begin `</think>`
        by_cases hlt : st1.emitPos < reasoningLimit st1.emitPos rawLen
        · have hln := Nat.le_trans (reasoningLimit_le hlt) hlen
          obtain ⟨hcut, hcl, -, -⟩ := utf8StreamSafeLen_held hfull hn hst1.boundary hln
          have hbound := (hcut (Nat.le_of_lt hlt)).1
          exact ⟨⟨boundary_max hst1.boundary fun _ => hbound, hst1.tool⟩,
            api.valid_reasoningFragment hst1 hbound (Nat.le_trans hcl hln)⟩
        · rw [utf8StreamSafeLen_of_le (Nat.not_lt.mp hlt),
            api.reasoningFragment_nil (Nat.not_lt.mp hlt), Nat.max_eq_left (Nat.not_lt.mp hlt)]
          exact ⟨⟨hst1.boundary, hst1.tool⟩, validDeltas_nil⟩

/-- **The text block.** -/
theorem textUpdate_keeps (hfull : Lib.Valid full) (hn : n ≤ full.length) (hlen : rawLen ≤ n)
    (hst : StreamInv full st) (hfinal : final = true → Lib.Boundary full rawLen) :
    StreamInv full (api.textUpdate (full.take n) rawLen hasTools st final).1 ∧
      ValidDeltas (api.textUpdate (full.take n) rawLen hasTools st final).2 := by
  have hlimit : ∃ limit, textStreamSafeLimit (full.take n) st.emitPos rawLen hasTools final = limit ∧
      (st.emitPos < limit → Lib.Boundary full limit ∧ limit ≤ n) := by
    refine ⟨_, rfl, fun hlt => ?_⟩
    by_cases hin : st.emitPos < rawLen
    · exact textStreamSafeLimit_boundary hfull hn hlen hst.boundary hfinal hin
    · -- nothing has arrived behind the stream
      have hval : textStreamSafeLimit (full.take n) st.emitPos rawLen hasTools final = rawLen := by
        unfold textStreamSafeLimit
        rw [if_pos (Nat.not_lt.mp hin)]
      omega
  obtain ⟨limit, hval, hbound⟩ := hlimit
  have hds : ValidDeltas (api.fragment (full.take n) .content st limit) := by
    by_cases hlt : st.emitPos < limit
    · exact api.valid_fragment (fun _ => rfl) hst (hbound hlt).1 (hbound hlt).2
    · rw [api.fragment_nil (Nat.not_lt.mp hlt)]
      exact validDeltas_nil
  unfold textUpdate
  rw [hval]
  dsimp only
  cases htool : (if hasTools then findAnyToolStart ((full.take n).drop st.emitPos) else none) with
  | none => exact ⟨⟨boundary_max hst.boundary fun hlt => (hbound hlt).1, hst.tool⟩, hds⟩
  | some i =>
    have hfind : findAnyToolStart ((full.take n).drop st.emitPos) = some i := by
      split at htool
      · exact htool
      · exact absurd htool (by simp)
    obtain ⟨-, hstart, -⟩ := toolStart_boundary hfull hfind
    dsimp only
    split
    · refine ⟨⟨hstart, ?_⟩, hds⟩
      -- the block starts with a marker of one of the spellings, or there is none
      show ToolInv full (openaiToolStreamInit (full.take n) rawLen (st.emitPos + i))
      unfold openaiToolStreamInit
      cases hsyn : dsmlSyntaxes.find? (fun syn =>
          rawFullLit (full.take n) rawLen (st.emitPos + i) syn.toolCallsStart) with
      | none =>
        exact ⟨by simp [OpenaiToolStream.zero, dsmlSyntaxes], fun h => absurd h (by simp)⟩
      | some syn =>
        exact ⟨List.mem_of_find?_eq_some hsyn, fun h => absurd h (by simp [OpenaiToolStream.zero])⟩
    · exact ⟨⟨hstart, hst.tool⟩, hds⟩

/-- **An update** leaves the stream between two characters and sends valid text. -/
theorem sseStreamUpdate_keeps (hasTools final : Bool) (hfull : Lib.Valid full)
    (hn : n ≤ full.length) (hlen : rawLen ≤ n)
    (hst : StreamInv full st) (hfinal : final = true → Lib.Boundary full rawLen) :
    StreamInv full (api.sseStreamUpdate (full.take n) rawLen hasTools st final).1 ∧
      ValidDeltas (api.sseStreamUpdate (full.take n) rawLen hasTools st final).2 := by
  unfold sseStreamUpdate
  split
  · exact ⟨hst, validDeltas_nil⟩
  dsimp only
  have h1 : ∃ r1, (if st.mode = .thinking then api.reasoningUpdate (full.take n) rawLen st final
      else (st, [])) = r1 ∧ StreamInv full r1.1 ∧ ValidDeltas r1.2 := by
    refine ⟨_, rfl, ?_⟩
    split
    · exact api.reasoningUpdate_keeps hfull hn hlen hst hfinal
    · exact ⟨hst, validDeltas_nil⟩
  obtain ⟨r1, hr1, hinv1, hds1⟩ := h1
  rw [hr1]
  have h2 : ∃ r2, (if r1.1.mode = .text then api.textUpdate (full.take n) rawLen hasTools r1.1 final
      else (r1.1, [])) = r2 ∧ StreamInv full r2.1 ∧ ValidDeltas r2.2 := by
    refine ⟨_, rfl, ?_⟩
    split
    · exact api.textUpdate_keeps hfull hn hlen hinv1 hfinal
    · exact ⟨hinv1, validDeltas_nil⟩
  obtain ⟨r2, hr2, hinv2, hds2⟩ := h2
  rw [hr2]
  have h3 : StreamInv full (if r2.1.mode = .tool then api.toolUpdate (full.take n) rawLen r2.1
      else (r2.1, [])).1 ∧ ValidDeltas (if r2.1.mode = .tool then
        api.toolUpdate (full.take n) rawLen r2.1 else (r2.1, [])).2 := by
    split
    · obtain ⟨htool, hds⟩ := api.toolLoop_keeps hfull hn hlen hinv2.tool (rawLen + 1)
      exact ⟨⟨hinv2.boundary, htool⟩, hds⟩
    · exact ⟨hinv2, validDeltas_nil⟩
  refine ⟨h3.1, ?_⟩
  rw [validDeltas_append, validDeltas_append]
  exact ⟨⟨hds1, hds2⟩, h3.2⟩

/-! ### What an update holds back -/

/-- The stream stands before `h`, the first bytes of a character that it has held back; the text
    is to go on up to `last`. -/
def Awaits (full : Bytes) (last : Nat) (st : OpenaiStream) (h : Bytes) : Prop :=
  st.active = true ∧
    match st.mode with
    | .thinking =>
      api.showsReasoning = true ∧ st.checkedThinkPrefix = true ∧ HeldAt full st.emitPos h ∧
        st.emitPos < last
    | .text     => HeldAt full st.emitPos h ∧ st.emitPos < last
    | .tool     =>
      st.tool.active = true ∧ st.tool.state = .paramValue ∧ HeldAt full st.tool.parsePos h ∧
        st.tool.parsePos < last
    | .suppress => False

variable {last : Nat}

/-- **The reasoning block** holds bytes only while it goes on. -/
theorem reasoningHeld_spec (final : Bool) (hfull : Lib.Valid full) (hn : n ≤ full.length) (hlen : rawLen ≤ n)
    (hlast : rawLen ≤ last) (hst : StreamInv full st) (hmode : st.mode = .thinking)
    (hact : st.active = true) :
    let h := api.reasoningHeld (full.take n) rawLen st final
    let r := api.reasoningUpdate (full.take n) rawLen st final
    h.length ≤ 3 ∧
      (h ≠ [] → final = false ∧ r.1.mode = .thinking ∧ api.Awaits full last r.1 h) := by
  intro h r
  have hnone : h = [] → h.length ≤ 3 ∧
      (h ≠ [] → final = false ∧ r.1.mode = .thinking ∧ api.Awaits full last r.1 h) := by
    intro hnil
    exact ⟨by rw [hnil]; simp, fun hne => absurd hnil hne⟩
  cases hcheck : checkThinkPrefix (full.take n) rawLen st final with
  | none =>
    apply hnone
    show api.reasoningHeld (full.take n) rawLen st final = []
    unfold reasoningHeld
    rw [hcheck]
  | some st1 =>
    obtain ⟨hst1, hchecked, hmode1, hact1, -⟩ := checkThinkPrefix_spec hfull hst hcheck
    cases hclose : strstr ((full.take n).drop st1.emitPos) THINK_END with
    | some i =>
      apply hnone
      show api.reasoningHeld (full.take n) rawLen st final = []
      unfold reasoningHeld
      rw [hcheck]
      dsimp only
      rw [hclose]
    | none =>
      by_cases hoff : (final || !api.showsReasoning) = true
      · apply hnone
        show api.reasoningHeld (full.take n) rawLen st final = []
        unfold reasoningHeld
        rw [hcheck]
        dsimp only
        rw [hclose]
        dsimp only
        rw [if_pos hoff]
      rw [Bool.not_eq_true, Bool.or_eq_false_iff, Bool.not_eq_false'] at hoff
      obtain ⟨hfin, hshow⟩ := hoff
      have hheld : h = slice (full.take n)
          (utf8StreamSafeLen (full.take n) st1.emitPos (reasoningLimit st1.emitPos rawLen) false)
          (reasoningLimit st1.emitPos rawLen) := by
        show api.reasoningHeld (full.take n) rawLen st final = _
        unfold reasoningHeld
        rw [hcheck]
        dsimp only
        rw [hclose]
        dsimp only
        rw [if_neg (by rw [hfin, hshow]; simp)]
      have hr : r.1 = { st1 with
          emitPos := max st1.emitPos
            (utf8StreamSafeLen (full.take n) st1.emitPos (reasoningLimit st1.emitPos rawLen) false) } := by
        show (api.reasoningUpdate (full.take n) rawLen st final).1 = _
        unfold reasoningUpdate
        rw [hcheck]
        dsimp only
        rw [hclose, hfin]
        rfl
      by_cases hlt : st1.emitPos < reasoningLimit st1.emitPos rawLen
      · have hln := reasoningLimit_le hlt
        obtain ⟨-, -, hshort, hat⟩ := utf8StreamSafeLen_held hfull hn hst1.boundary
          (Nat.le_trans hln hlen)
        rw [← hheld] at hshort hat
        refine ⟨hshort, fun hne => ?_⟩
        obtain ⟨hge, hcut, hheldAt⟩ := hat hne
        rw [hr]
        refine ⟨hfin, hmode1.trans hmode, hact1.trans hact, ?_⟩
        dsimp only
        rw [hmode1, hmode, Nat.max_eq_right hge]
        exact ⟨hshow, hchecked, hheldAt, by omega⟩
      · apply hnone
        rw [hheld, utf8StreamSafeLen_of_le (Nat.not_lt.mp hlt)]
        exact slice_self_le (Nat.le_refl _)

/-- **The text block** holds bytes only while it goes on. -/
theorem textHeld_spec (hasTools final : Bool) (hfull : Lib.Valid full) (hn : n ≤ full.length) (hlen : rawLen ≤ n)
    (hlast : rawLen ≤ last) (hst : StreamInv full st) (hmode : st.mode = .text)
    (hact : st.active = true) :
    let h := textHeld (full.take n) rawLen hasTools st final
    let r := api.textUpdate (full.take n) rawLen hasTools st final
    h.length ≤ 3 ∧
      (h ≠ [] → final = false ∧ r.1.mode = .text ∧ api.Awaits full last r.1 h) := by
  intro h r
  have hnone : h = [] → h.length ≤ 3 ∧
      (h ≠ [] → final = false ∧ r.1.mode = .text ∧ api.Awaits full last r.1 h) := by
    intro hnil
    exact ⟨by rw [hnil]; simp, fun hne => absurd hnil hne⟩
  by_cases hin : rawLen ≤ st.emitPos
  · apply hnone
    show textHeld (full.take n) rawLen hasTools st final = []
    unfold textHeld
    rw [if_pos hin]
  have hlt : st.emitPos < rawLen := Nat.not_le.mp hin
  cases htool : (if hasTools then findAnyToolStart ((full.take n).drop st.emitPos) else none) with
  | some i =>
    apply hnone
    show textHeld (full.take n) rawLen hasTools st final = []
    unfold textHeld
    rw [if_neg hin, htool]
  | none =>
    have hval : textStreamSafeLimit (full.take n) st.emitPos rawLen hasTools final = _ :=
      textStreamSafeLimit_none hlt htool
    have hheld : h = slice (full.take n)
        (utf8StreamSafeLen (full.take n) st.emitPos
          (textLimit (full.take n) st.emitPos rawLen hasTools final) final)
        (textLimit (full.take n) st.emitPos rawLen hasTools final) := by
      show textHeld (full.take n) rawLen hasTools st final = _
      unfold textHeld
      rw [if_neg hin, htool, hval]
      rfl
    by_cases hfin : final = true
    · apply hnone
      rw [hheld, hfin, utf8StreamSafeLen_final]
      exact slice_self_le (Nat.le_refl _)
    rw [Bool.not_eq_true] at hfin
    rw [hfin] at hheld hval
    obtain ⟨hge, hle⟩ := textLimit_bounds hfull (Nat.le_of_lt hlt) hlen hasTools false
    obtain ⟨-, -, hshort, hat⟩ := utf8StreamSafeLen_held hfull hn hst.boundary
      (Nat.le_trans hle hlen)
    rw [← hheld] at hshort hat
    have hr : r.1 = { st with
        emitPos := max st.emitPos
          (utf8StreamSafeLen (full.take n) st.emitPos
            (textLimit (full.take n) st.emitPos rawLen hasTools false) false) } := by
      show (api.textUpdate (full.take n) rawLen hasTools st final).1 = _
      unfold textUpdate
      rw [hfin, hval, htool]
      rfl
    refine ⟨hshort, fun hne => ?_⟩
    obtain ⟨hge', hcut, hheldAt⟩ := hat hne
    rw [hr]
    refine ⟨hfin, hmode, hact, ?_⟩
    dsimp only
    rw [hmode, Nat.max_eq_right hge']
    exact ⟨hheldAt, by omega⟩

end StreamApi

/-- At the end of a text nothing of a value is held for a character. -/
theorem valueHold_boundary_take (hend : Lib.Boundary full n)
    {ts : OpenaiToolStream} (hsyn : ts.syn ∈ dsmlSyntaxes) (hpos : ts.parsePos ≤ n) :
    Lib.Boundary full (valueHold ts.syn.paramEnd (full.take n) ts.paramIsString ts.parsePos n) := by
  have hlength : (full.take n).length = n := by
    rw [List.length_take, Nat.min_eq_left hend.le]
  have hpos' : ts.parsePos ≤ (full.take n).length := by omega
  have hbound := valueHold_boundary (headed_paramEnd hsyn) hend.take ts.paramIsString hpos'
  rw [hlength] at hbound
  have happend := hbound.append hend.drop
  rwa [List.take_append_drop] at happend

/-- The first byte of what is held is no end tag and no entity. -/
theorem lt_valueHold (hn : n ≤ full.length) (hlen : rawLen ≤ n)
    {ts : OpenaiToolStream} (hsyn : ts.syn ∈ dsmlSyntaxes) {h : Bytes} (hne : h ≠ [])
    (hat : HeldAt full ts.parsePos h) (hpos : ts.parsePos < rawLen) :
    ts.parsePos < valueHold ts.syn.paramEnd (full.take n) ts.paramIsString ts.parsePos rawLen := by
  have hle : rawLen ≤ (full.take n).length := by
    rw [List.length_take]
    omega
  have hbyte : ∀ c : UInt8, c.toNat < 0x80 → (full.take n)[ts.parsePos]? ≠ some c := by
    intro c hc hget
    have := hat.head hne (getElem?_of_take hget)
    omega
  obtain ⟨h1, h2, h3, -⟩ := paramHold_spec (headed_paramEnd hsyn) (Nat.le_of_lt hpos) hle
  have hmark : ts.parsePos < paramHold ts.syn.paramEnd (full.take n) ts.parsePos rawLen := by
    by_contra hge
    have heq : paramHold ts.syn.paramEnd (full.take n) ts.parsePos rawLen = ts.parsePos := by omega
    have hget := (headed_paramEnd hsyn).partial_head (h3 (by omega))
    rw [heq, Lib.getElem?_take_lt hpos] at hget
    exact hbyte _ (by decide) hget
  unfold valueHold
  cases ts.paramIsString with
  | false => exact hmark
  | true =>
    obtain ⟨h4, h5, h6, -⟩ := entityHold_spec h1 (Nat.le_trans h2 hle)
    show ts.parsePos < dsmlEntityStreamSafeLen (full.take n) ts.parsePos _
    by_contra hge
    have heq : dsmlEntityStreamSafeLen (full.take n) ts.parsePos
        (paramHold ts.syn.paramEnd (full.take n) ts.parsePos rawLen) = ts.parsePos := by omega
    obtain ⟨e, he, hp⟩ := h6 (by omega)
    have hget := (headed_entity he).1.partial_head hp
    rw [heq, Lib.getElem?_take_lt hmark] at hget
    exact hbyte _ (by decide) hget

namespace StreamApi

variable (api : StreamApi) {st : OpenaiStream} {ts : OpenaiToolStream} {hasTools final : Bool}
  {last : Nat}

/-- A turn that stops in a value whose end has not arrived. -/
theorem toolParamValue_open (hn : n ≤ full.length) (hlen : rawLen ≤ n) (hsyn : ts.syn ∈ dsmlSyntaxes)
    (hst : ts.state = .paramValue) (hpos : ts.parsePos ≤ rawLen)
    (hend : findLitBounded (full.take n) rawLen ts.parsePos ts.syn.paramEnd = none) :
    let cut := toolParamValueStreamSafeLen (full.take n) ts.parsePos rawLen ts.syn.paramEnd
      ts.paramIsString
    ts.parsePos ≤ cut ∧ api.toolStep (full.take n) rawLen ts =
      .stop { ts with parsePos := cut }
        (if ts.parsePos < cut then api.emitValue ts (slice (full.take n) ts.parsePos cut) else []) := by
  intro cut
  have hle : rawLen ≤ (full.take n).length := by
    rw [List.length_take]
    omega
  have hge : ts.parsePos ≤ cut :=
    (safeLen_bounds (headed_paramEnd hsyn) ts.paramIsString hpos hle).1
  have hstep : api.toolStep (full.take n) rawLen ts = api.toolParamValue (full.take n) rawLen ts := by
    unfold toolStep
    rw [hst]
  refine ⟨hge, ?_⟩
  rw [hstep]
  unfold toolParamValue
  rw [hend]
  dsimp only
  change (if ts.parsePos < cut then _ else _) = _
  rcases Nat.eq_or_lt_of_le hge with heq | hlt
  · rw [if_neg (by omega), if_neg (by omega), ← heq]
  · rw [if_pos hlt, if_pos hlt]

/-- **The tool stream** holds bytes only in a value whose end has not arrived, and none at the end
    of the text. -/
theorem toolHeld_spec (hfull : Lib.Valid full) (hn : n ≤ full.length) (hlen : rawLen ≤ n)
    (hts : ToolInv full ts) (fuel : Nat) :
    let h := api.toolHeld (full.take n) rawLen fuel ts
    let r := api.toolLoop (full.take n) rawLen fuel ts
    h.length ≤ 3 ∧ (rawLen = n → Lib.Boundary full n → h = []) ∧
      (h ≠ [] → r.1.active = true ∧ r.1.state = .paramValue ∧ HeldAt full r.1.parsePos h ∧
        r.1.parsePos < rawLen) := by
  induction fuel generalizing ts with
  | zero => exact ⟨Nat.zero_le _, fun _ _ => rfl, fun hne => absurd rfl hne⟩
  | succ fuel ih =>
    unfold toolHeld toolLoop
    by_cases hgo : (ts.active && decide (ts.parsePos < rawLen)) = true
    · rw [if_pos hgo, if_pos hgo]
      obtain ⟨hact, hlt⟩ := Bool.and_eq_true_iff.mp hgo
      have hpos := of_decide_eq_true hlt
      cases hs : api.toolStep (full.take n) rawLen ts with
      | next ts' ds =>
        have hstep := api.toolStep_keeps hfull hn hlen hts (Nat.le_of_lt hpos)
        rw [hs] at hstep
        exact ih hstep.1
      | stop ts' ds =>
        dsimp only
        unfold toolStepHeld
        by_cases hopen : ts.state = .paramValue ∧
            findLitBounded (full.take n) rawLen ts.parsePos ts.syn.paramEnd = none
        -- the cut is where `utf8_stream_safe_len` says
        · rw [if_pos hopen]
          obtain ⟨-, hstop⟩ :=
            api.toolParamValue_open hn hlen hts.syn hopen.1 (Nat.le_of_lt hpos) hopen.2
          rw [hs] at hstop
          obtain ⟨rfl, -⟩ := ToolStep.stop.inj hstop
          obtain ⟨hge, hle⟩ := valueHold_le hn hlen hts.syn (Nat.le_of_lt hpos)
          obtain ⟨-, -, hshort, hat⟩ := utf8StreamSafeLen_held hfull hn (hts.boundary hopen.1)
            (Nat.le_trans hle hlen)
          rw [← safeLen_eq] at hshort hat
          refine ⟨hshort, ?_, fun hne => ?_⟩
          · rintro rfl hend
            have hbound := valueHold_boundary_take hend hts.syn (Nat.le_of_lt hpos)
            have hval := (utf8StreamSafeLen_boundary hfull (hts.boundary hopen.1) hge
              (Nat.le_trans hle hn)).2 hbound
            rw [safeLen_eq, utf8StreamSafeLen_take full _ hle, hval]
            exact slice_self_le (Nat.le_refl _)
          · obtain ⟨-, hcut, hheldAt⟩ := hat hne
            exact ⟨hact, hopen.1, hheldAt, by
              show toolParamValueStreamSafeLen _ _ _ _ _ < rawLen
              omega⟩
        · rw [if_neg hopen]
          exact ⟨Nat.zero_le _, fun _ _ => rfl, fun hne => absurd rfl hne⟩
    · rw [if_neg hgo, if_neg hgo]
      exact ⟨Nat.zero_le _, fun _ _ => rfl, fun hne => absurd rfl hne⟩

theorem reasoningUpdate_active (raw : Bytes) (rawLen : Nat) (st : OpenaiStream) (final : Bool) :
    (api.reasoningUpdate raw rawLen st final).1.active = st.active := by
  have hcheck : ∀ st1, checkThinkPrefix raw rawLen st final = some st1 → st1.active = st.active := by
    intro st1 h
    unfold checkThinkPrefix at h
    split at h
    · rw [← Option.some.inj h]
    split at h
    · exact absurd h (by simp)
    split at h
    · rw [← Option.some.inj h]
    · rw [← Option.some.inj h]
  unfold reasoningUpdate
  cases hc : checkThinkPrefix raw rawLen st final with
  | none => rfl
  | some st1 =>
    have hact := hcheck st1 hc
    dsimp only
    split
    · exact hact
    · split
      · exact hact
      · exact hact

theorem textUpdate_active (raw : Bytes) (rawLen : Nat) (hasTools : Bool) (st : OpenaiStream)
    (final : Bool) : (api.textUpdate raw rawLen hasTools st final).1.active = st.active := by
  unfold textUpdate
  dsimp only
  split
  · split <;> rfl
  · rfl

/-- **What an update holds back**: at most three bytes, before which the stream then stands, and
    none at the end of the text. -/
theorem held_spec (hasTools final : Bool) (hfull : Lib.Valid full) (hn : n ≤ full.length)
    (hlen : rawLen ≤ n)
    (hlast : rawLen ≤ last) (hst : StreamInv full st)
    (hfinal : final = true → rawLen = n ∧ Lib.Boundary full n) :
    let h := api.held (full.take n) rawLen hasTools st final
    let r := api.sseStreamUpdate (full.take n) rawLen hasTools st final
    h.length ≤ 3 ∧ (final = true → h = []) ∧ (h ≠ [] → api.Awaits full last r.1 h) := by
  have hfinal' : final = true → Lib.Boundary full rawLen := fun hf => (hfinal hf).1 ▸ (hfinal hf).2
  unfold held sseStreamUpdate
  by_cases hact : st.active = false
  · rw [if_pos hact, if_pos hact]
    exact ⟨Nat.zero_le _, fun _ => rfl, fun hne => absurd rfl hne⟩
  rw [if_neg hact, if_neg hact]
  rw [Bool.not_eq_false] at hact
  dsimp only
  -- the reasoning block
  have h1 : ∃ r1 a, (if st.mode = .thinking then api.reasoningUpdate (full.take n) rawLen st final
      else (st, [])) = r1 ∧ (if st.mode = .thinking then
        api.reasoningHeld (full.take n) rawLen st final else []) = a ∧ StreamInv full r1.1 ∧
      r1.1.active = true ∧ a.length ≤ 3 ∧
      (a ≠ [] → final = false ∧ r1.1.mode = .thinking ∧ api.Awaits full last r1.1 a) := by
    refine ⟨_, _, rfl, rfl, ?_⟩
    by_cases hm : st.mode = .thinking
    · rw [if_pos hm, if_pos hm]
      obtain ⟨hshort, hwaits⟩ := api.reasoningHeld_spec final hfull hn hlen hlast hst hm hact
      exact ⟨(api.reasoningUpdate_keeps hfull hn hlen hst hfinal').1,
        (api.reasoningUpdate_active _ _ st final).trans hact, hshort, hwaits⟩
    · rw [if_neg hm, if_neg hm]
      exact ⟨hst, hact, Nat.zero_le _, fun hne => absurd rfl hne⟩
  obtain ⟨r1, a, hr1, ha, hinv1, hact1, hshort1, hwaits1⟩ := h1
  rw [hr1, ha]
  by_cases hanil : a = []
  case neg =>
    -- reasoning goes on, the other blocks are not entered
    obtain ⟨hfin, hmode, hwaits⟩ := hwaits1 hanil
    rw [hmode]
    simp only [if_neg (show OpenaiStreamMode.thinking ≠ .text by simp), List.append_nil, hmode,
      if_neg (show OpenaiStreamMode.thinking ≠ .tool by simp)]
    exact ⟨hshort1, fun hf => absurd hf (by rw [hfin]; simp), fun _ => hwaits⟩
  rw [hanil, List.nil_append]
  -- the text block
  have h2 : ∃ r2 b, (if r1.1.mode = .text then api.textUpdate (full.take n) rawLen hasTools r1.1 final
      else (r1.1, [])) = r2 ∧ (if r1.1.mode = .text then
        textHeld (full.take n) rawLen hasTools r1.1 final else []) = b ∧ StreamInv full r2.1 ∧
      r2.1.active = true ∧ b.length ≤ 3 ∧
      (b ≠ [] → final = false ∧ r2.1.mode = .text ∧ api.Awaits full last r2.1 b) := by
    refine ⟨_, _, rfl, rfl, ?_⟩
    by_cases hm : r1.1.mode = .text
    · rw [if_pos hm, if_pos hm]
      obtain ⟨hshort, hwaits⟩ :=
        api.textHeld_spec hasTools final hfull hn hlen hlast hinv1 hm hact1
      exact ⟨(api.textUpdate_keeps hfull hn hlen hinv1 hfinal').1,
        (api.textUpdate_active _ _ hasTools r1.1 final).trans hact1, hshort, hwaits⟩
    · rw [if_neg hm, if_neg hm]
      exact ⟨hinv1, hact1, Nat.zero_le _, fun hne => absurd rfl hne⟩
  obtain ⟨r2, b, hr2, hb, hinv2, hact2, hshort2, hwaits2⟩ := h2
  rw [hr2, hb]
  by_cases hbnil : b = []
  case neg =>
    obtain ⟨hfin, hmode, hwaits⟩ := hwaits2 hbnil
    simp only [hmode, List.append_nil, if_neg (show OpenaiStreamMode.text ≠ .tool by simp)]
    exact ⟨hshort2, fun hf => absurd hf (by rw [hfin]; simp), fun _ => hwaits⟩
  rw [hbnil, List.nil_append]
  -- the tool block
  by_cases hm : r2.1.mode = .tool
  · rw [if_pos hm, if_pos hm]
    obtain ⟨hshort, hnil, hwaits⟩ := api.toolHeld_spec hfull hn hlen hinv2.tool (rawLen + 1)
    refine ⟨hshort, fun hf => hnil (hfinal hf).1 (hfinal hf).2, fun hne => ?_⟩
    obtain ⟨hta, hts, hat, hlt⟩ := hwaits hne
    refine ⟨hact2, ?_⟩
    show match (if (api.toolLoop (full.take n) rawLen (rawLen + 1) r2.1.tool).1.active then
      OpenaiStreamMode.tool else .suppress) with
      | .thinking => _
      | .text     => _
      | .tool     => _
      | .suppress => _
    rw [if_pos hta]
    exact ⟨hta, hts, hat, by
      show (api.toolLoop (full.take n) rawLen (rawLen + 1) r2.1.tool).1.parsePos < last
      omega⟩
  · rw [if_neg hm, if_neg hm]
    exact ⟨Nat.zero_le _, fun _ => rfl, fun hne => absurd rfl hne⟩

/-! ### What was held is sent -/

variable {h : Bytes}

/-- A fragment from held bytes begins with them. -/
theorem begins_fragment {delta : Bytes → Delta} (hdelta : ∀ t, (delta t).text = t)
    (hat : HeldAt full st.emitPos h) {limit : Nat} (hlimit : Lib.Boundary full limit)
    (hlt : st.emitPos < limit) (hn : limit ≤ n) :
    Begins h (api.fragment (full.take n) delta st limit) := by
  unfold fragment
  rw [if_pos hlt]
  refine ⟨_, List.mem_singleton_self _, ?_⟩
  rw [hdelta]
  exact api.out_prefix _ _ hat.high.nulFree (hat.prefix_slice hlimit hlt hn)

/-- **The reasoning block** sends what it has held, or changes nothing. -/
theorem reasoningUpdate_awaits (hfull : Lib.Valid full) (hn : n ≤ full.length) (hlen : rawLen ≤ n)
    (hne : h ≠ []) (hshow : api.showsReasoning = true) (hchecked : st.checkedThinkPrefix = true)
    (hat : HeldAt full st.emitPos h)
    (hfinal : final = true → Lib.Boundary full rawLen ∧ st.emitPos < rawLen) :
    Begins h (api.reasoningUpdate (full.take n) rawLen st final).2 ∨
      final = false ∧ api.reasoningUpdate (full.take n) rawLen st final = (st, []) := by
  have hcheck : checkThinkPrefix (full.take n) rawLen st final = some st := by
    unfold checkThinkPrefix
    rw [if_pos hchecked]
  have hsend : ∀ limit, Lib.Boundary full limit → st.emitPos < limit → limit ≤ n →
      Begins h (api.reasoningFragment (full.take n) st limit) := by
    intro limit hlimit hlt hle
    unfold reasoningFragment
    rw [if_pos hshow]
    exact api.begins_fragment (fun _ => rfl) hat hlimit hlt hle
  unfold reasoningUpdate
  rw [hcheck]
  dsimp only
  cases hclose : strstr ((full.take n).drop st.emitPos) THINK_END with
  | some i =>
    -- `</think>` does not start with the held bytes
    obtain ⟨hbyte, hstop, -, hin⟩ := thinkEnd_boundary hfull hclose
    have hi : i ≠ 0 := by
      rintro rfl
      exact absurd (hat.head hne hbyte) (by decide)
    exact Or.inl (hsend _ hstop (by omega) hin)
  | none =>
    cases final with
    | true =>
      obtain ⟨hend, hlt⟩ := hfinal rfl
      exact Or.inl (hsend rawLen hend hlt hlen)
    | false =>
      dsimp only
      by_cases hlt : st.emitPos < reasoningLimit st.emitPos rawLen
      · have hln := Nat.le_trans (reasoningLimit_le hlt) hlen
        obtain ⟨hcut, hcl, -, -⟩ := utf8StreamSafeLen_held hfull hn hat.boundary hln
        obtain ⟨hbound, hge⟩ := hcut (Nat.le_of_lt hlt)
        rcases Nat.eq_or_lt_of_le hge with heq | hgt
        · refine Or.inr ⟨rfl, ?_⟩
          rw [← heq, api.reasoningFragment_nil (Nat.le_refl _), Nat.max_self]
          rfl
        · exact Or.inl (hsend _ hbound hgt (Nat.le_trans hcl hln))
      · refine Or.inr ⟨rfl, ?_⟩
        rw [utf8StreamSafeLen_of_le (Nat.not_lt.mp hlt),
          api.reasoningFragment_nil (Nat.not_lt.mp hlt), Nat.max_eq_left (Nat.not_lt.mp hlt)]
        rfl

/-- **The text block** sends what it has held, or changes nothing. -/
theorem textUpdate_awaits (hasTools : Bool) (hfull : Lib.Valid full) (hn : n ≤ full.length)
    (hlen : rawLen ≤ n) (hne : h ≠ []) (hat : HeldAt full st.emitPos h)
    (hpos : st.emitPos < rawLen) (hfinal : final = true → Lib.Boundary full rawLen) :
    Begins h (api.textUpdate (full.take n) rawLen hasTools st final).2 ∨
      final = false ∧ api.textUpdate (full.take n) rawLen hasTools st final = (st, []) := by
  cases htool : (if hasTools then findAnyToolStart ((full.take n).drop st.emitPos) else none) with
  | some i =>
    have hfind : findAnyToolStart ((full.take n).drop st.emitPos) = some i := by
      split at htool
      · exact htool
      · exact absurd htool (by simp)
    -- the held bytes are no marker and no white space
    obtain ⟨hbyte, hbound, hin⟩ := toolStart_boundary hfull hfind
    have hi : i ≠ 0 := by
      rintro rfl
      exact absurd (hat.head hne hbyte) (by decide)
    obtain ⟨-, hle, hb, hgt⟩ := trimToolSeparatorWs_spec hfull (Nat.le_add_right st.emitPos i)
      (Nat.le_of_lt hin)
    have hlt := hgt (fun c hc => hat.head hne hc) (by omega) (by omega)
    have hsend : Begins h (api.fragment (full.take n) .content st
        (trimToolSeparatorWs (full.take n) st.emitPos (st.emitPos + i))) :=
      api.begins_fragment (fun _ => rfl) hat (hb hbound) hlt (by omega)
    refine Or.inl ?_
    unfold textUpdate
    rw [htool, textStreamSafeLimit_tool final hpos htool]
    dsimp only
    split
    · exact hsend
    · exact hsend
  | none =>
    have hval : textStreamSafeLimit (full.take n) st.emitPos rawLen hasTools final = _ :=
      textStreamSafeLimit_none hpos htool
    have hsend : ∀ limit, Lib.Boundary full limit → st.emitPos < limit → limit ≤ n →
        Begins h (api.fragment (full.take n) .content st limit) :=
      fun limit hlimit hlt hle => api.begins_fragment (fun _ => rfl) hat hlimit hlt hle
    unfold textUpdate
    rw [hval, htool]
    dsimp only
    cases final with
    | true =>
      rw [utf8StreamSafeLen_final, textLimit_final]
      exact Or.inl (hsend rawLen (hfinal rfl) hpos hlen)
    | false =>
      obtain ⟨hge, hle⟩ := textLimit_bounds hfull (Nat.le_of_lt hpos) hlen hasTools false
      obtain ⟨hcut, hcl, -, -⟩ := utf8StreamSafeLen_held hfull hn hat.boundary (Nat.le_trans hle hlen)
      obtain ⟨hbound, hge'⟩ := hcut hge
      rcases Nat.eq_or_lt_of_le hge' with heq | hgt
      · refine Or.inr ⟨rfl, ?_⟩
        rw [← heq, api.fragment_nil (Nat.le_refl _), Nat.max_self]
        rfl
      · exact Or.inl (hsend _ hbound hgt (Nat.le_trans hcl (Nat.le_trans hle hlen)))

/-- **The tool stream** sends what it has held, or changes nothing; at the end of the text it sends
    it. -/
theorem toolStreamUpdate_awaits (hfull : Lib.Valid full) (hn : n ≤ full.length) (hlen : rawLen ≤ n)
    (hts : ToolInv full ts) (hact : ts.active = true) (hst : ts.state = .paramValue) (hne : h ≠ [])
    (hat : HeldAt full ts.parsePos h) (hpos : ts.parsePos < rawLen) :
    Begins h (api.toolStreamUpdate (full.take n) rawLen ts).2 ∨
      ¬ (rawLen = n ∧ Lib.Boundary full n) ∧
        api.toolStreamUpdate (full.take n) rawLen ts = (ts, []) := by
  have hgo : (ts.active && decide (ts.parsePos < rawLen)) = true := by
    rw [hact, decide_eq_true hpos]
    rfl
  have hlength : rawLen ≤ (full.take n).length := by
    rw [List.length_take]
    omega
  unfold toolStreamUpdate toolLoop
  rw [if_pos hgo]
  cases hend : findLitBounded (full.take n) rawLen ts.parsePos ts.syn.paramEnd with
  | some valueEnd =>
    -- the end tag does not start with the held bytes
    obtain ⟨hle, hfit, hp⟩ := findLitBounded_spec hlength (Nat.le_of_lt hpos) hend
    have hbyte := getElem?_of_take ((headed_paramEnd hts.syn).head hp)
    have hlt : ts.parsePos < valueEnd := by
      rcases Nat.eq_or_lt_of_le hle with rfl | hlt
      · exact absurd (hat.head hne hbyte) (by decide)
      · exact hlt
    have hstop := (hfull.boundary_of_ascii hbyte (by decide)).1
    have hpre : h <+: slice (full.take n) ts.parsePos valueEnd :=
      hat.prefix_slice hstop hlt (by omega)
    have hvalue := api.begins_emitValue hne hat.high hpre ts
    have hstep : api.toolStep (full.take n) rawLen ts = api.toolFinishParam (full.take n) ts valueEnd := by
      unfold toolStep
      rw [hst]
      dsimp only
      unfold toolParamValue
      rw [hend]
    rw [hstep]
    refine Or.inl (Begins.left ?_ _)
    rw [if_pos hlt]
    exact hvalue.left _
  | none =>
    obtain ⟨-, hstep⟩ := api.toolParamValue_open hn hlen hts.syn hst (Nat.le_of_lt hpos) hend
    rw [hstep]
    dsimp only
    obtain ⟨hge, hle⟩ := valueHold_le hn hlen hts.syn (Nat.le_of_lt hpos)
    obtain ⟨hcut, hcl, -, -⟩ := utf8StreamSafeLen_held hfull hn hat.boundary (Nat.le_trans hle hlen)
    obtain ⟨hbound, hge'⟩ := hcut hge
    rw [← safeLen_eq] at hbound hge' hcl
    rcases Nat.eq_or_lt_of_le hge' with heq | hgt
    · refine Or.inr ⟨?_, ?_⟩
      -- at the end of the text the limit is behind the character
      · rintro ⟨rfl, hendb⟩
        have hlt := lt_valueHold hn hlen hts.syn hne hat hpos
        have hval := (utf8StreamSafeLen_boundary hfull hat.boundary hge (Nat.le_trans hle hn)).2
          (valueHold_boundary_take hendb hts.syn (Nat.le_of_lt hpos))
        rw [safeLen_eq, utf8StreamSafeLen_take full _ hle, hval] at heq
        omega
      · rw [if_neg (by omega), ← heq]
    · rw [if_pos hgt]
      have hpre := hat.prefix_slice (n := n) hbound hgt (by omega)
      exact Or.inl (api.begins_emitValue hne hat.high hpre ts)

/-- **What an update has held** begins a delta of a later update, at the latest of the final one. -/
theorem sseStreamUpdate_awaits (hasTools final : Bool) (hfull : Lib.Valid full) (hn : n ≤ full.length)
    (hlen : rawLen ≤ n) (hlast : last ≤ rawLen) (hst : StreamInv full st) (hne : h ≠ [])
    (hwaits : api.Awaits full last st h) (hfinal : final = true → rawLen = n ∧ Lib.Boundary full n) :
    Begins h (api.sseStreamUpdate (full.take n) rawLen hasTools st final).2 ∨
      final = false ∧ api.sseStreamUpdate (full.take n) rawLen hasTools st final = (st, []) := by
  have hfinal' : final = true → Lib.Boundary full rawLen := fun hf => (hfinal hf).1 ▸ (hfinal hf).2
  obtain ⟨hact, hmode⟩ := hwaits
  unfold sseStreamUpdate
  rw [if_neg (by rw [hact]; simp)]
  dsimp only
  cases hm : st.mode with
  | thinking =>
    rw [hm] at hmode
    obtain ⟨hshow, hchecked, hat, hpos⟩ := hmode
    rw [if_pos rfl]
    rcases api.reasoningUpdate_awaits hfull hn hlen hne hshow hchecked hat
      (fun hf => ⟨hfinal' hf, by omega⟩) with hbegins | ⟨hfin, hsame⟩
    · exact Or.inl ((hbegins.left _).left _)
    -- reasoning goes on, the other blocks are not entered
    · refine Or.inr ⟨hfin, ?_⟩
      rw [hsame]
      simp [hm]
  | text =>
    rw [hm] at hmode
    obtain ⟨hat, hpos⟩ := hmode
    rw [if_neg (show OpenaiStreamMode.text ≠ .thinking by simp)]
    dsimp only
    rw [if_pos hm]
    rcases api.textUpdate_awaits hasTools hfull hn hlen hne hat (by omega) hfinal' with
      hbegins | ⟨hfin, hsame⟩
    · exact Or.inl ((hbegins.right _).left _)
    · refine Or.inr ⟨hfin, ?_⟩
      rw [hsame]
      simp [hm]
  | tool =>
    rw [hm] at hmode
    obtain ⟨hta, hts, hat, hpos⟩ := hmode
    rw [if_neg (show OpenaiStreamMode.tool ≠ .thinking by simp)]
    dsimp only
    rw [if_neg (show st.mode ≠ .text by rw [hm]; simp)]
    dsimp only
    rw [if_pos hm]
    rcases api.toolStreamUpdate_awaits hfull hn hlen hst.tool hta hts hne hat (by omega) with
      hbegins | ⟨hopen, hsame⟩
    · exact Or.inl (hbegins.right _)
    · refine Or.inr ⟨?_, ?_⟩
      · rw [Bool.eq_false_iff]
        exact fun hf => hopen (hfinal hf)
      · unfold toolUpdate
        rw [hsame]
        dsimp only
        rw [hta, if_pos rfl, ← hm]
        rfl
  | suppress =>
    rw [hm] at hmode
    exact hmode.elim

end StreamApi

end DS4.Server
