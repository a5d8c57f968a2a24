import DS4.Server.StreamBlocks

namespace DS4.Server

/-!
# Server — the OpenAI stream in pieces

However a text arrives, a client puts together the same response from what the stream sends.

* `StartAt` — a tool block starts at a position; `toolStart_iff`, `toolStart_none_iff` — the first
  one is found.
* `le_textStreamSafeLimit` — what is sent before a block is known ends before the white space of the
  block.
* `Goes` — an update that the final update can follow; `Goes.fragment` — what the final update sends
  may be sent in two parts.
* `reasoningUpdate_open`, `textUpdate_open` — what an update holds back; `reasoningUpdate_from`,
  `textUpdate_from` — the final update goes on from there to the same place.
* `reasoning_goes`, `text_goes`, `tool_goes` — the three blocks of an update.
* `stream_chunks` — **every split** of a text.
-/

variable {full : Bytes} {n : Nat}

/-! ### Where a tool block starts -/

/-- A tool block starts at a position, in some spelling. -/
def StartAt (s : Bytes) (i : Nat) : Prop := ∃ syn ∈ dsmlSyntaxes, syn.toolCallsStart <+: s.drop i

theorem headed_toolCallsStart {syn : DsmlSyntax} (h : syn ∈ dsmlSyntaxes) :
    Lib.Headed '<'.toUInt8 syn.toolCallsStart :=
  headed_marker h (by simp [DsmlSyntax.markers])

/-- The start markers fit in the window of the scan, and none begins with another. -/
theorem toolCallsStart_apart : ∀ syn ∈ dsmlSyntaxes, syn.toolCallsStart.length ≤ 80 ∧
    ∀ syn' ∈ dsmlSyntaxes, syn.toolCallsStart.isPrefixOf syn'.toolCallsStart = true → syn = syn' := by
  decide

theorem earliest_le {candidates : List (Option Nat)} {i j : Nat} (h : earliest candidates = some i)
    (hj : some j ∈ candidates) : i ≤ j := by
  have hleast : ∀ k, earliest candidates = some k → i ≤ k := by
    intro k hk
    rw [h] at hk
    exact Nat.le_of_eq (Option.some.inj hk)
  unfold earliest at hleast
  refine (Lib.foldl_forall (p := fun x => ∀ k, x = some k → i ≤ k) ?_ hleast).2 _ hj j rfl
  -- the least so far and the next candidate, each there or not
  rintro (_ | b) (_ | c) hle
  · exact ⟨nofun, nofun⟩
  · exact ⟨nofun, hle⟩
  · exact ⟨hle, nofun⟩
  · dsimp only at hle
    by_cases hlt : c < b
    · rw [if_pos hlt] at hle
      have hc := hle c rfl
      exact ⟨fun k hk => by obtain rfl := Option.some.inj hk; omega, hle⟩
    · rw [if_neg hlt] at hle
      have hb := hle b rfl
      exact ⟨hle, fun k hk => by obtain rfl := Option.some.inj hk; omega⟩

/-- The candidates of `find_any_tool_start`. -/
theorem findAnyToolStart_eq (hnul : NulFree full) :
    findAnyToolStart full =
      earliest (dsmlSyntaxes.map fun syn => Lib.findSub syn.toolCallsStart full) := by
  unfold findAnyToolStart
  rw [hnul.strstr, hnul.strstr, hnul.strstr]
  rfl

/-- **Nothing is found** where no block starts. -/
theorem toolStart_none_iff (hnul : NulFree full) {pos : Nat} :
    findAnyToolStart (full.drop pos) = none ↔ ∀ i, ¬ StartAt full (pos + i) := by
  rw [findAnyToolStart_eq (hnul.drop pos)]
  constructor
  · rintro h i ⟨syn, hsyn, hp⟩
    have hnone := earliest_eq_none h _ (List.mem_map_of_mem hsyn)
    rw [Lib.findSub_eq_none_iff] at hnone
    have hfit := hp.length_le
    have hpos := (headed_toolCallsStart hsyn).length_pos
    rw [List.length_drop] at hfit
    exact hnone i (by rw [List.length_drop]; omega) (by rwa [List.drop_drop])
  · intro h
    by_contra hne
    obtain ⟨i, hi⟩ := Option.ne_none_iff_exists'.mp hne
    obtain ⟨syn, hsyn, hfind⟩ := List.mem_map.mp (earliest_mem hi)
    obtain ⟨-, hp, -⟩ := (Lib.findSub_eq_some_iff).mp hfind
    rw [List.drop_drop] at hp
    exact h i ⟨syn, hsyn, hp⟩

/-- **The first start** is found. -/
theorem toolStart_iff (hnul : NulFree full) {pos i : Nat} :
    findAnyToolStart (full.drop pos) = some i ↔
      StartAt full (pos + i) ∧ ∀ j < i, ¬ StartAt full (pos + j) := by
  have hfound : ∀ {i}, findAnyToolStart (full.drop pos) = some i →
      StartAt full (pos + i) ∧ ∀ j < i, ¬ StartAt full (pos + j) := by
    intro i h
    rw [findAnyToolStart_eq (hnul.drop pos)] at h
    obtain ⟨syn, hsyn, hfind⟩ := List.mem_map.mp (earliest_mem h)
    obtain ⟨-, hp, -⟩ := (Lib.findSub_eq_some_iff).mp hfind
    rw [List.drop_drop] at hp
    refine ⟨⟨syn, hsyn, hp⟩, ?_⟩
    rintro j hj ⟨syn', hsyn', hp'⟩
    -- the spelling that starts at `j` is a candidate
    rw [← List.drop_drop] at hp'
    cases hfind' : Lib.findSub syn'.toolCallsStart (full.drop pos) with
    | none =>
      have hfit := hp'.length_le
      have hpos := (headed_toolCallsStart hsyn').length_pos
      rw [List.length_drop] at hfit
      exact (Lib.findSub_eq_none_iff).mp hfind' j (by omega) hp'
    | some k =>
      have hik := earliest_le h (List.mem_map.mpr ⟨syn', hsyn', hfind'⟩)
      exact ((Lib.findSub_eq_some_iff).mp hfind').2.2 j (by omega) hp'
  refine ⟨hfound, ?_⟩
  rintro ⟨hstart, hfirst⟩
  cases h : findAnyToolStart (full.drop pos) with
  | none => exact absurd hstart ((toolStart_none_iff hnul).mp h i)
  | some k =>
    obtain ⟨hk, hbefore⟩ := hfound h
    rcases Nat.lt_trichotomy k i with hlt | rfl | hgt
    · exact absurd hk (hfirst k hlt)
    · rfl
    · exact absurd hstart (hbefore i hgt)

/-- What starts in the part that has arrived starts in the text, … -/
theorem StartAt.of_take {i : Nat} (hn : n ≤ full.length) (h : StartAt (full.take n) i) :
    StartAt full i ∧ full[i]? = some '<'.toUInt8 ∧ i < n := by
  obtain ⟨syn, hsyn, hp⟩ := h
  have hpos := (headed_toolCallsStart hsyn).length_pos
  obtain ⟨hp', hfit⟩ := (Lib.prefix_drop_take_iff hpos hn).mp hp
  exact ⟨⟨syn, hsyn, hp'⟩, (headed_toolCallsStart hsyn).head hp', by omega⟩

/-- … and a start that has not arrived ends behind the cut. -/
theorem StartAt.behind {i : Nat} (hn : n ≤ full.length) (h : StartAt full i)
    (hcut : ¬ StartAt (full.take n) i) :
    ∃ pat, Lib.Headed '<'.toUInt8 pat ∧ pat.length ≤ 80 ∧ pat <+: full.drop i ∧ n < i + pat.length := by
  obtain ⟨syn, hsyn, hp⟩ := h
  have hheaded := headed_toolCallsStart hsyn
  refine ⟨_, hheaded, (toolCallsStart_apart syn hsyn).1, hp, ?_⟩
  by_contra hle
  exact hcut ⟨syn, hsyn, (Lib.prefix_drop_take_iff hheaded.length_pos hn).mpr ⟨hp, by omega⟩⟩

/-- **A start that has arrived** is the first of the text. -/
theorem toolStart_take (hnul : NulFree full) (hn : n ≤ full.length) {pos i : Nat}
    (h : findAnyToolStart ((full.take n).drop pos) = some i) :
    findAnyToolStart (full.drop pos) = some i := by
  obtain ⟨hstart, hfirst⟩ := (toolStart_iff (hnul.take n)).mp h
  obtain ⟨hfull, hbyte, hin⟩ := hstart.of_take hn
  refine (toolStart_iff hnul).mpr ⟨hfull, fun j hj hbefore => ?_⟩
  -- an earlier one would hold the first byte of this one
  obtain ⟨pat, hheaded, -, hp, hend⟩ := hbefore.behind hn (hfirst j hj)
  exact hheaded.inner_ne hp (show pos + j < pos + i by omega) (by omega) hbyte

/-- Of two spellings only one starts at a position. -/
theorem openaiToolStreamInit_cut (hn : n ≤ full.length) {pos : Nat} (h : StartAt (full.take n) pos) :
    openaiToolStreamInit (full.take n) n pos = openaiToolStreamInit full full.length pos := by
  have hsame : ∀ syn ∈ dsmlSyntaxes,
      rawFullLit (full.take n) n pos syn.toolCallsStart =
        rawFullLit full full.length pos syn.toolCallsStart := by
    intro syn hsyn
    rw [Bool.eq_iff_iff]
    refine ⟨rawFullLit_mono hn, fun hfull => ?_⟩
    obtain ⟨syn', hsyn', hp'⟩ := h
    have hpos := (headed_toolCallsStart hsyn').length_pos
    have hlt := (StartAt.of_take hn ⟨syn', hsyn', hp'⟩).2.2
    unfold rawFullLit at hfull ⊢
    rw [Bool.and_eq_true, decide_eq_true_eq, List.isPrefixOf_iff_prefix] at hfull ⊢
    rw [slice_take (Nat.le_refl n)]
    rw [slice_length_eq] at hfull
    obtain ⟨hp, hfit⟩ := (Lib.prefix_drop_take_iff hpos hn).mp hp'
    -- the spelling that has arrived is the one of the text
    have heq : syn = syn' := by
      obtain hpre | hpre := List.prefix_or_prefix_of_prefix hfull.2 hp
      · exact (toolCallsStart_apart syn hsyn).2 syn' hsyn' (List.isPrefixOf_iff_prefix.mpr hpre)
      · exact ((toolCallsStart_apart syn' hsyn').2 syn hsyn (List.isPrefixOf_iff_prefix.mpr hpre)).symm
    rw [heq]
    refine ⟨Nat.le_of_lt hlt, ?_⟩
    have hslice : slice full pos n = (full.take n).drop pos := rfl
    rwa [hslice]
  unfold openaiToolStreamInit
  rw [Lib.find?_eq_of_forall hsame]

/-! ### White space before a block -/

theorem trimToolSeparatorWs_le (raw : Bytes) (start limit : Nat) :
    trimToolSeparatorWs raw start limit ≤ limit := by
  induction limit with
  | zero => exact Nat.le_refl 0
  | succ limit ih =>
    unfold trimToolSeparatorWs
    split
    · exact Nat.le_succ_of_le ih
    · exact Nat.le_refl _

/-- The text does not end with white space where it is trimmed, but at the start. -/
theorem trimToolSeparatorWs_last {raw : Bytes} {start limit : Nat} (h : start ≤ limit) :
    trimToolSeparatorWs raw start limit = start ∨
      ∃ p, trimToolSeparatorWs raw start limit = p + 1 ∧ isspace (raw.getD p 0) = false := by
  induction limit with
  | zero => exact Or.inl (Nat.le_zero.mp h).symm
  | succ limit ih =>
    unfold trimToolSeparatorWs
    by_cases htrim : start < limit + 1 ∧ isspace (raw.getD limit 0) = true
    · rw [if_pos htrim]
      exact ih (by omega)
    · rw [if_neg htrim]
      rcases Nat.eq_or_lt_of_le h with heq | hlt
      · exact Or.inl heq.symm
      · refine Or.inr ⟨limit, rfl, ?_⟩
        rw [← Bool.not_eq_true]
        exact fun hspace => htrim ⟨hlt, hspace⟩

/-- Trimming stops behind a position, if it does not start before it and there is a byte at its side
    that is no white space. -/
theorem le_trimToolSeparatorWs {raw : Bytes} {start limit p : Nat} (hp : p ≤ limit)
    (h : p ≤ start ∨ (∃ q, p = q + 1 ∧ isspace (raw.getD q 0) = false) ∨
      p < limit ∧ isspace (raw.getD p 0) = false) :
    p ≤ trimToolSeparatorWs raw start limit := by
  induction limit with
  | zero => exact hp
  | succ limit ih =>
    unfold trimToolSeparatorWs
    by_cases htrim : start < limit + 1 ∧ isspace (raw.getD limit 0) = true
    · rw [if_pos htrim]
      obtain ⟨hlt, hspace⟩ := htrim
      rcases h with h | ⟨q, rfl, hq⟩ | ⟨hlt', hq⟩
      · exact ih (by omega) (Or.inl h)
      · have hne : q ≠ limit := by
          rintro rfl
          rw [hspace] at hq
          cases hq
        exact ih (by omega) (Or.inr (Or.inl ⟨q, rfl, hq⟩))
      · have hne : p ≠ limit := by
          rintro rfl
          rw [hspace] at hq
          cases hq
        exact ih (by omega) (Or.inr (Or.inr ⟨by omega, hq⟩))
    · rw [if_neg htrim]
      exact hp

/-- **Trimming from further on.** What is sent already does not matter if it ends before the white
    space. -/
theorem trimToolSeparatorWs_from {raw : Bytes} {start start' limit : Nat} (h : start ≤ start')
    (hle : start' ≤ trimToolSeparatorWs raw start limit) :
    trimToolSeparatorWs raw start' limit = trimToolSeparatorWs raw start limit := by
  induction limit with
  | zero => rfl
  | succ limit ih =>
    unfold trimToolSeparatorWs at hle ⊢
    by_cases htrim : start < limit + 1 ∧ isspace (raw.getD limit 0) = true
    · rw [if_pos htrim] at hle ⊢
      have hbound := trimToolSeparatorWs_le raw start limit
      rw [if_pos ⟨by omega, htrim.2⟩]
      exact ih hle
    · rw [if_neg htrim] at hle ⊢
      rw [if_neg fun h' => htrim ⟨by omega, h'.2⟩]

theorem trimToolSeparatorWs_take {start limit : Nat} (h : limit ≤ n) :
    trimToolSeparatorWs (full.take n) start limit = trimToolSeparatorWs full start limit := by
  induction limit with
  | zero => rfl
  | succ limit ih =>
    unfold trimToolSeparatorWs
    rw [List.getD_eq_getElem?_getD, List.getD_eq_getElem?_getD, Lib.getElem?_take_lt (by omega),
      ih (by omega)]

/-- Bytes that are not ASCII are no white space. -/
theorem isspace_high {c : UInt8} (h : 0x80 ≤ c.toNat) : isspace c = false := by
  rw [← Bool.not_eq_true]
  exact fun hspace => absurd (isspace_ascii hspace) (by omega)

/-- **What is held back.** Before a block that has not arrived, the text is sent up to its white space
    at most. -/
theorem textSafeLen_le (hn : n ≤ full.length) {start t : Nat} (hlt : start < n) (ht : start ≤ t)
    (hstart : StartAt full t) (hcut : ¬ StartAt (full.take n) t) :
    utf8StreamSafeLen (full.take n) start (textHoldLimit (full.take n) start n) false ≤
      trimToolSeparatorWs full start t := by
  obtain ⟨pat, hheaded, hshort, hp, hend⟩ := hstart.behind hn hcut
  have hget : ∀ {p}, p < n → (full.take n).getD p 0 = full.getD p 0 := by
    intro p hp
    rw [List.getD_eq_getElem?_getD, List.getD_eq_getElem?_getD, Lib.getElem?_take_lt hp]
  -- the text is trimmed at the first byte of the marker, or before the cut
  obtain ⟨limit, hlimit, hsl, hle, hln⟩ : ∃ limit,
      textHoldLimit (full.take n) start n = trimToolSeparatorWs (full.take n) start limit ∧
        start ≤ limit ∧ limit ≤ t ∧ limit ≤ n := by
    have hge : start ≤ trimToolSeparatorWs (full.take n) start n :=
      le_trimToolSeparatorWs (Nat.le_of_lt hlt) (Or.inl (Nat.le_refl _))
    have htrim := trimToolSeparatorWs_le (full.take n) start n
    have hbyte : t < n → (full.take n)[t]? = some '<'.toUInt8 := fun htn => by
      rw [Lib.getElem?_take_lt htn]
      exact hheaded.head hp
    have hscan : (if 80 < n - start then n - 80 else start) ≤ t := by
      split <;> omega
    unfold textHoldLimit
    dsimp only
    cases hmark : Lib.lastIdx '<'.toUInt8 (full.take n)
        (if 80 < n - start then n - 80 else start) n with
    | none =>
      have htn : n ≤ t := by
        by_contra htn
        exact Lib.lastIdx_none hmark t hscan (by omega) (hbyte (by omega))
      exact ⟨_, rfl, hge, Nat.le_trans htrim htn, htrim⟩
    | some marker =>
      obtain ⟨hfrom, hto, hmarker, hlast⟩ := Lib.lastIdx_some hmark
      rw [Lib.getElem?_take_lt hto] at hmarker
      have hmt : marker ≤ t := by
        by_contra htm
        exact hheaded.inner_ne hp (show t < marker by omega) (by omega) hmarker
      have hsm : start ≤ marker := by
        split at hfrom <;> omega
      exact ⟨_, rfl, Nat.le_min.mpr ⟨hsm, hge⟩, Nat.le_trans (Nat.min_le_left _ _) hmt,
        Nat.le_trans (Nat.min_le_left _ _) (Nat.le_of_lt hto)⟩
  rw [hlimit]
  have hbelow := trimToolSeparatorWs_le (full.take n) start limit
  have hfrom : start ≤ trimToolSeparatorWs (full.take n) start limit :=
    le_trimToolSeparatorWs hsl (Or.inl (Nat.le_refl _))
  have hlast := @trimToolSeparatorWs_last (full.take n) start limit hsl
  generalize trimToolSeparatorWs (full.take n) start limit = stop at *
  obtain ⟨-, hsafe⟩ := utf8StreamSafeLen_bounds (full.take n) hfrom false
  rcases Nat.eq_or_lt_of_le hsafe with heq | hless
  · -- there is text right before it
    rw [heq]
    refine le_trimToolSeparatorWs (by omega) ?_
    rcases hlast with h | ⟨q, hq, hspace⟩
    · exact Or.inl (Nat.le_of_eq h)
    · rw [hget (by omega)] at hspace
      exact Or.inr (Or.inl ⟨q, hq, hspace⟩)
  · -- an incomplete character starts there
    refine le_trimToolSeparatorWs (by omega) ?_
    rcases utf8StreamSafeLen_head hless with h | hhigh
    · exact Or.inl (Nat.le_of_eq h)
    · rw [hget (by omega)] at hhigh
      exact Or.inr (Or.inr ⟨by omega, isspace_high hhigh⟩)

/-! ### Fragments -/

variable {hasTools : Bool} {st st' : OpenaiStream}

theorem chatDelta_take {delta : Bytes → Delta} {limit : Nat} (h : limit ≤ n) :
    chatDelta (full.take n) delta st limit = chatDelta full delta st limit := by
  unfold chatDelta
  rw [slice_take h]

/-- **A fragment** may be sent in two parts. -/
theorem chatDelta_cut {delta : Bytes → Delta} (hdelta : delta = .reasoningContent ∨ delta = .content)
    (hnul : NulFree full) {limit : Nat} (h : st.emitPos ≤ st'.emitPos) (h' : st'.emitPos ≤ limit) :
    Same (chatDelta full delta st limit)
      (chatDelta full delta st st'.emitPos ++ chatDelta full delta st' limit) := by
  unfold chatDelta
  rcases Nat.eq_or_lt_of_le h with heq | hlt
  · rw [heq, if_neg (Nat.lt_irrefl _), List.nil_append]
    exact Same.refl _
  rcases Nat.eq_or_lt_of_le h' with heq | hlt'
  · rw [← heq, if_neg (Nat.lt_irrefl st'.emitPos), List.append_nil]
    exact Same.refl _
  rw [if_pos (Nat.lt_trans hlt hlt'), if_pos hlt, if_pos hlt', (hnul.slice _ _).cstr, (hnul.slice _ _).cstr,
    (hnul.slice _ _).cstr, slice_append h h']
  rcases hdelta with rfl | rfl
  · constructor <;> simp [reasoningOf, contentOf, startsOf, argsOf]
  · constructor <;> simp [reasoningOf, contentOf, startsOf, argsOf]

/-! ### The final update -/

/-- The update with the whole text. -/
def finalUpdate (full : Bytes) (hasTools : Bool) (st : OpenaiStream) : OpenaiStream × List Delta :=
  openaiSseStreamUpdate full full.length hasTools st true

theorem finalUpdate_suppress (h : st.mode = .suppress) : finalUpdate full hasTools st = (st, []) := by
  unfold finalUpdate openaiSseStreamUpdate
  simp [h]

theorem finalUpdate_tool (hact : st.active = true) (h : st.mode = .tool) :
    finalUpdate full hasTools st = openaiToolUpdate full full.length st := by
  unfold finalUpdate openaiSseStreamUpdate
  simp [h, hact]

/-- Behind a block of the update, the update goes on as from the state that the block leaves. -/
theorem finalUpdate_text (hact : st.active = true) (h : st.mode = .text) :
    finalUpdate full hasTools st =
      ((finalUpdate full hasTools (openaiTextUpdate full full.length hasTools st true).1).1,
        (openaiTextUpdate full full.length hasTools st true).2 ++
          (finalUpdate full hasTools (openaiTextUpdate full full.length hasTools st true).1).2) := by
  have hnext : (openaiTextUpdate full full.length hasTools st true).1.active = true ∧
      (openaiTextUpdate full full.length hasTools st true).1.mode ≠ .thinking ∧
      (openaiTextUpdate full full.length hasTools st true).1.mode ≠ .text := by
    -- the block leaves a tool block to be read, or nothing
    unfold openaiTextUpdate
    dsimp only
    split
    · dsimp only
      split
      · exact ⟨hact, nofun, nofun⟩
      · exact ⟨hact, nofun, nofun⟩
    · exact ⟨hact, nofun, nofun⟩
  unfold finalUpdate openaiSseStreamUpdate
  simp [h, hact, hnext]

theorem checkThinkPrefix_final (raw : Bytes) (rawLen : Nat) (st : OpenaiStream) :
    ∃ st1, checkThinkPrefix raw rawLen st true = some st1 ∧ st1.active = st.active := by
  unfold checkThinkPrefix
  split
  · exact ⟨_, rfl, rfl⟩
  rw [if_neg (by simp)]
  split
  · exact ⟨_, rfl, rfl⟩
  · exact ⟨_, rfl, rfl⟩

theorem finalUpdate_thinking (hact : st.active = true) (h : st.mode = .thinking) :
    finalUpdate full hasTools st =
      ((finalUpdate full hasTools (openaiReasoningUpdate full full.length st true).1).1,
        (openaiReasoningUpdate full full.length st true).2 ++
          (finalUpdate full hasTools (openaiReasoningUpdate full full.length st true).1).2) := by
  have hnext : (openaiReasoningUpdate full full.length st true).1.active = true ∧
      (openaiReasoningUpdate full full.length st true).1.mode ≠ .thinking := by
    obtain ⟨st1, hcheck, hactive⟩ := checkThinkPrefix_final full full.length st
    unfold openaiReasoningUpdate
    rw [hcheck]
    dsimp only
    split
    · exact ⟨hactive.trans hact, nofun⟩
    · rw [if_pos rfl]
      exact ⟨hactive.trans hact, nofun⟩
  unfold finalUpdate openaiSseStreamUpdate
  simp [h, hact, hnext]

/-! ### Updates that the final update can follow -/

/-- The final update goes on from what an update has left and sent, as it would have without it. -/
structure Goes (full : Bytes) (hasTools : Bool) (st : OpenaiStream) (r : OpenaiStream × List Delta) : Prop where
  state : (finalUpdate full hasTools r.1).1 = (finalUpdate full hasTools st).1
  deltas : Same (finalUpdate full hasTools st).2 (r.2 ++ (finalUpdate full hasTools r.1).2)

theorem Goes.refl (st : OpenaiStream) : Goes full hasTools st (st, []) := ⟨rfl, Same.refl _⟩

theorem Goes.trans {r r' : OpenaiStream × List Delta} (h : Goes full hasTools st r)
    (h' : Goes full hasTools r.1 r') : Goes full hasTools st (r'.1, r.2 ++ r'.2) := by
  refine ⟨h'.state.trans h.state, h.deltas.trans ?_⟩
  show Same (r.2 ++ (finalUpdate full hasTools r.1).2) (r.2 ++ r'.2 ++ (finalUpdate full hasTools r'.1).2)
  rw [List.append_assoc]
  exact (Same.refl r.2).append h'.deltas

/-- **A fragment** of the final update may be sent by an update before it, if the rest of it is sent
    from further on and the stream goes on alike. -/
theorem Goes.fragment {delta : Bytes → Delta} (hdelta : delta = .reasoningContent ∨ delta = .content)
    (hnul : NulFree full) {next : OpenaiStream} {stop : Nat} (hfrom : st.emitPos ≤ st'.emitPos)
    (hstop : st'.emitPos ≤ stop)
    (h : finalUpdate full hasTools st = ((finalUpdate full hasTools next).1,
      chatDelta full delta st stop ++ (finalUpdate full hasTools next).2))
    (h' : finalUpdate full hasTools st' = ((finalUpdate full hasTools next).1,
      chatDelta full delta st' stop ++ (finalUpdate full hasTools next).2)) :
    Goes full hasTools st (st', chatDelta full delta st st'.emitPos) := by
  constructor
  · show (finalUpdate full hasTools st').1 = (finalUpdate full hasTools st).1
    rw [h, h']
  · show Same (finalUpdate full hasTools st).2
      (chatDelta full delta st st'.emitPos ++ (finalUpdate full hasTools st').2)
    rw [h, h', ← List.append_assoc]
    exact (chatDelta_cut hdelta hnul hfrom hstop).append (Same.refl _)

/-! ### The reasoning block -/

/-- **The check of `<think>`** is the same on the text. -/
theorem checkThinkPrefix_cut (hn : n ≤ full.length) {st1 : OpenaiStream}
    (h : checkThinkPrefix (full.take n) n st false = some st1) :
    checkThinkPrefix full full.length st true = some st1 ∧ st1.checkedThinkPrefix = true ∧
      st1.mode = st.mode ∧ st1.active = st.active ∧ st1.tool = st.tool ∧
      (st.emitPos ≤ n → st1.emitPos ≤ n) := by
  unfold checkThinkPrefix at h ⊢
  by_cases hchecked : st.checkedThinkPrefix = true
  · rw [if_pos hchecked] at h ⊢
    obtain rfl := Option.some.inj h
    exact ⟨rfl, hchecked, rfl, rfl, rfl, id⟩
  rw [if_neg hchecked] at h ⊢
  rw [if_neg (fun hwait => absurd hwait.2.2 (by simp))]
  by_cases hwait : n < THINK_START.length ∧ ((full.take n).take n).isPrefixOf THINK_START = true ∧ false = false
  · rw [if_pos hwait] at h
    exact absurd h nofun
  rw [if_neg hwait] at h
  have hiff : (THINK_START.length ≤ n ∧ THINK_START.isPrefixOf (full.take n) = true) ↔
      THINK_START.length ≤ full.length ∧ THINK_START.isPrefixOf full = true := by
    simp only [List.isPrefixOf_iff_prefix]
    constructor
    · exact fun ⟨hlen, hp⟩ => ⟨Nat.le_trans hlen hn, hp.trans (List.take_prefix n full)⟩
    · rintro ⟨-, hp⟩
      have hlen : THINK_START.length ≤ n := by
        by_contra hlt
        -- what has arrived is the first part of the tag
        refine hwait ⟨by omega, ?_, rfl⟩
        rw [List.isPrefixOf_iff_prefix, List.take_take, Nat.min_self]
        exact List.prefix_of_prefix_length_le (List.take_prefix n full) hp (by rw [List.length_take]; omega)
      exact ⟨hlen, List.prefix_of_prefix_length_le hp (List.take_prefix n full)
        (by rw [List.length_take]; omega)⟩
  by_cases hopen : THINK_START.length ≤ n ∧ THINK_START.isPrefixOf (full.take n) = true
  · rw [if_pos hopen] at h
    rw [if_pos (hiff.mp hopen)]
    obtain rfl := Option.some.inj h
    exact ⟨rfl, rfl, rfl, rfl, rfl, fun _ => hopen.1⟩
  · rw [if_neg hopen] at h
    rw [if_neg (mt hiff.mpr hopen)]
    obtain rfl := Option.some.inj h
    exact ⟨rfl, rfl, rfl, rfl, rfl, id⟩

/-- Once checked, the check changes nothing. -/
theorem checkThinkPrefix_checked {raw : Bytes} {rawLen : Nat} {final : Bool}
    (h : st.checkedThinkPrefix = true) : checkThinkPrefix raw rawLen st final = some st := by
  unfold checkThinkPrefix
  rw [if_pos h]

/-- Reasoning before its end has arrived ends before the end. -/
theorem reasoningLimit_le_close (hnul : NulFree full) (hn : n ≤ full.length) {pos i : Nat}
    (hcut : strstr ((full.take n).drop pos) THINK_END = none) (h : strstr (full.drop pos) THINK_END = some i) :
    StreamApi.reasoningLimit pos n ≤ pos + i := by
  rw [((hnul.take n).drop pos).strstr] at hcut
  rw [(hnul.drop pos).strstr] at h
  have hbehind := Lib.findSub_take_none (by decide) hn hcut h
  have hlen : THINK_END.length = 8 := (marker_heads).2.2.2.1
  unfold StreamApi.reasoningLimit
  split <;> omega

/-- The end of the reasoning, once it has arrived. -/
theorem close_take (hnul : NulFree full) {pos i : Nat}
    (hclose : strstr ((full.take n).drop pos) THINK_END = some i) :
    pos + i + THINK_END.length ≤ n ∧ strstr (full.drop pos) THINK_END = some i := by
  rw [((hnul.take n).drop _).strstr] at hclose
  constructor
  · have hle := Lib.findSub_length_le hclose
    rw [List.length_drop, List.length_take] at hle
    have hlen : THINK_END.length = 8 := (marker_heads).2.2.2.1
    omega
  · rw [(hnul.drop _).strstr]
    exact Lib.findSub_take_some (by decide) hclose

theorem reasoningUpdate_checked {raw : Bytes} {rawLen : Nat} {final : Bool}
    (h : checkThinkPrefix raw rawLen st final = some st') (hchecked : st'.checkedThinkPrefix = true) :
    openaiReasoningUpdate raw rawLen st final = openaiReasoningUpdate raw rawLen st' final := by
  unfold openaiReasoningUpdate
  rw [h, checkThinkPrefix_checked hchecked]

/-- Reasoning with its end. -/
theorem reasoningUpdate_close {raw : Bytes} {rawLen i : Nat} {final : Bool}
    (hchecked : st.checkedThinkPrefix = true) (h : strstr (raw.drop st.emitPos) THINK_END = some i) :
    openaiReasoningUpdate raw rawLen st final =
      ({ st with emitPos := st.emitPos + i + THINK_END.length, mode := .text },
        chatDelta raw .reasoningContent st (st.emitPos + i)) := by
  unfold openaiReasoningUpdate
  rw [checkThinkPrefix_checked hchecked]
  dsimp only
  rw [h]

/-- Reasoning without an end, in the whole text. -/
theorem reasoningUpdate_end (hchecked : st.checkedThinkPrefix = true) (hle : st.emitPos ≤ full.length)
    (h : strstr (full.drop st.emitPos) THINK_END = none) :
    openaiReasoningUpdate full full.length st true =
      ({ st with emitPos := full.length, mode := .suppress },
        chatDelta full .reasoningContent st full.length) := by
  unfold openaiReasoningUpdate
  rw [checkThinkPrefix_checked hchecked]
  dsimp only
  rw [h]
  dsimp only
  rw [Nat.max_eq_right hle]
  rfl

/-- **Reasoning from further on.** What is sent already does not matter if it ends before the end of
    the reasoning. -/
theorem reasoningUpdate_from (hnul : NulFree full) (hchecked : st.checkedThinkPrefix = true) {p : Nat}
    (hfrom : st.emitPos ≤ p) (hp : p ≤ full.length)
    (hbefore : ∀ i, strstr (full.drop st.emitPos) THINK_END = some i → p ≤ st.emitPos + i) :
    ∃ next stop, p ≤ stop ∧
      openaiReasoningUpdate full full.length st true =
        (next, chatDelta full .reasoningContent st stop) ∧
      openaiReasoningUpdate full full.length { st with emitPos := p } true =
        (next, chatDelta full .reasoningContent { st with emitPos := p } stop) := by
  have hdrop : full.drop p = (full.drop st.emitPos).drop (p - st.emitPos) := by
    rw [List.drop_drop, Nat.add_sub_cancel' hfrom]
  cases hend : strstr (full.drop st.emitPos) THINK_END with
  | some i =>
    have hi := hbefore i hend
    refine ⟨_, st.emitPos + i, hi, reasoningUpdate_close hchecked hend, ?_⟩
    -- the same end is found, nearer by what is sent
    have hagain : strstr (full.drop p) THINK_END = some (st.emitPos + i - p) := by
      rw [(hnul.drop _).strstr] at hend ⊢
      rw [hdrop, Lib.findSub_drop_some hend (by omega)]
      congr 1
      omega
    have hplace : p + (st.emitPos + i - p) = st.emitPos + i := Nat.add_sub_cancel' hi
    have hupdate := @reasoningUpdate_close { st with emitPos := p } full full.length _ true hchecked hagain
    dsimp only at hupdate
    rw [hplace] at hupdate
    exact hupdate
  | none =>
    have hagain : strstr (full.drop p) THINK_END = none := by
      rw [(hnul.drop _).strstr] at hend ⊢
      rw [hdrop]
      exact Lib.findSub_drop_none (by decide) hend _
    exact ⟨_, full.length, hp, reasoningUpdate_end hchecked (Nat.le_trans hfrom hp) hend,
      reasoningUpdate_end hchecked hp hagain⟩

/-- **What is held back** of the reasoning. Before its end has arrived, an update goes on to a place
    that is before the end. -/
theorem reasoningUpdate_open (hnul : NulFree full) (hn : n ≤ full.length)
    (hchecked : st.checkedThinkPrefix = true) (hpos : st.emitPos ≤ n)
    (hclose : strstr ((full.take n).drop st.emitPos) THINK_END = none) :
    ∃ p, st.emitPos ≤ p ∧ p ≤ n ∧
      (∀ i, strstr (full.drop st.emitPos) THINK_END = some i → p ≤ st.emitPos + i) ∧
      openaiReasoningUpdate (full.take n) n st false =
        ({ st with emitPos := p }, chatDelta full .reasoningContent st p) := by
  unfold openaiReasoningUpdate
  rw [checkThinkPrefix_checked hchecked]
  dsimp only
  rw [hclose]
  dsimp only
  rw [if_neg (by simp)]
  -- the last bytes may begin `</think>`
  have hlimit : (if THINK_END.length - 1 < n then n - (THINK_END.length - 1) else st.emitPos) =
      StreamApi.reasoningLimit st.emitPos n := rfl
  rw [hlimit]
  generalize hcut : utf8StreamSafeLen (full.take n) st.emitPos
    (StreamApi.reasoningLimit st.emitPos n) false = cut
  have hle : cut ≤ max st.emitPos (StreamApi.reasoningLimit st.emitPos n) := by
    rw [← hcut]
    rcases Nat.le_total st.emitPos (StreamApi.reasoningLimit st.emitPos n) with h | h
    · exact Nat.le_trans (utf8StreamSafeLen_bounds _ h false).2 (Nat.le_max_right _ _)
    · rw [utf8StreamSafeLen_of_le h]
      exact Nat.le_max_right _ _
  have hln : max st.emitPos (StreamApi.reasoningLimit st.emitPos n) ≤ n := by
    refine Nat.max_le.mpr ⟨hpos, ?_⟩
    unfold StreamApi.reasoningLimit
    split <;> omega
  have hcn := Nat.le_trans hle hln
  have hsent : chatDelta full .reasoningContent st cut =
      chatDelta full .reasoningContent st (max st.emitPos cut) := by
    unfold chatDelta
    rcases Nat.lt_or_ge st.emitPos cut with h | h
    · rw [Nat.max_eq_right (Nat.le_of_lt h)]
    · rw [Nat.max_eq_left h, if_neg (Nat.not_lt.mpr h), if_neg (Nat.lt_irrefl _)]
  rw [chatDelta_take hcn, hsent]
  refine ⟨max st.emitPos cut, Nat.le_max_left _ _, Nat.max_le.mpr ⟨hpos, hcn⟩, ?_, rfl⟩
  intro i hend
  have hbefore := reasoningLimit_le_close hnul hn hclose hend
  exact Nat.max_le.mpr ⟨Nat.le_add_right _ _,
    Nat.le_trans hle (Nat.max_le.mpr ⟨Nat.le_add_right _ _, hbefore⟩)⟩

/-- The reasoning block, once `<think>` is checked. -/
theorem reasoning_goes_checked (hasTools : Bool) (hnul : NulFree full) (hn : n ≤ full.length)
    (hchecked : st.checkedThinkPrefix = true) (hmode : st.mode = .thinking) (hact : st.active = true)
    (hpos : st.emitPos ≤ n) :
    Goes full hasTools st (openaiReasoningUpdate (full.take n) n st false) ∧
      (openaiReasoningUpdate (full.take n) n st false).1.active = true ∧
      (openaiReasoningUpdate (full.take n) n st false).1.emitPos ≤ n ∧
      (openaiReasoningUpdate (full.take n) n st false).1.tool = st.tool := by
  cases hclose : strstr ((full.take n).drop st.emitPos) THINK_END with
  | some i =>
    -- the end has arrived, so that the reasoning is sent as it is in the end
    obtain ⟨hfit, hend⟩ := close_take hnul hclose
    have hblock := @reasoningUpdate_close st full full.length i true hchecked hend
    rw [reasoningUpdate_close hchecked hclose, chatDelta_take (by omega)]
    refine ⟨?_, hact, hfit, rfl⟩
    constructor
    · rw [finalUpdate_thinking hact hmode, hblock]
    · rw [finalUpdate_thinking hact hmode, hblock]
      exact Same.refl _
  | none =>
    obtain ⟨p, hfrom, hpn, hbefore, hupdate⟩ := reasoningUpdate_open hnul hn hchecked hpos hclose
    obtain ⟨next, stop, hstop, hblock, hblock'⟩ :=
      reasoningUpdate_from hnul hchecked hfrom (Nat.le_trans hpn hn) hbefore
    have hact' : ({ st with emitPos := p } : OpenaiStream).active = true := hact
    have hmode' : ({ st with emitPos := p } : OpenaiStream).mode = .thinking := hmode
    rw [hupdate]
    refine ⟨?_, hact', hpn, rfl⟩
    have h := @finalUpdate_thinking full hasTools _ hact hmode
    have h' := @finalUpdate_thinking full hasTools _ hact' hmode'
    rw [hblock] at h
    rw [hblock'] at h'
    exact Goes.fragment (Or.inl rfl) hnul hfrom hstop h h'

/-- **The reasoning block.** -/
theorem reasoning_goes (hasTools : Bool) (hnul : NulFree full) (hn : n ≤ full.length) (hmode : st.mode = .thinking)
    (hact : st.active = true) (hpos : st.emitPos ≤ n) :
    Goes full hasTools st (openaiReasoningUpdate (full.take n) n st false) ∧
      (openaiReasoningUpdate (full.take n) n st false).1.active = true ∧
      (openaiReasoningUpdate (full.take n) n st false).1.emitPos ≤ n ∧
      (openaiReasoningUpdate (full.take n) n st false).1.tool = st.tool := by
  cases hcheck : checkThinkPrefix (full.take n) n st false with
  | none =>
    have hwait : openaiReasoningUpdate (full.take n) n st false = (st, []) := by
      unfold openaiReasoningUpdate
      rw [hcheck]
    rw [hwait]
    exact ⟨Goes.refl st, hact, hpos, rfl⟩
  | some st1 =>
    obtain ⟨hfull, hchecked, hmode1, hact1, htool1, hpos1⟩ := checkThinkPrefix_cut hn hcheck
    rw [hact] at hact1
    rw [hmode] at hmode1
    -- the final update of the whole text, from here on
    have hstart : finalUpdate full hasTools st = finalUpdate full hasTools st1 := by
      rw [finalUpdate_thinking hact hmode, finalUpdate_thinking hact1 hmode1,
        reasoningUpdate_checked hfull hchecked]
    obtain ⟨hgo, hact2, hpos2, htool2⟩ :=
      reasoning_goes_checked hasTools hnul hn hchecked hmode1 hact1 (hpos1 hpos)
    rw [reasoningUpdate_checked hcheck hchecked]
    refine ⟨?_, hact2, hpos2, htool2.trans htool1⟩
    constructor
    · rw [hstart]
      exact hgo.state
    · rw [hstart]
      exact hgo.deltas

/-! ### The text block -/

theorem toolInv_init (raw : Bytes) (rawLen pos : Nat) : ToolInv full (openaiToolStreamInit raw rawLen pos) := by
  unfold openaiToolStreamInit
  split
  next syn hsyn =>
    exact ⟨List.mem_of_find?_eq_some hsyn, fun h => absurd h (by simp [OpenaiToolStream.zero])⟩
  next => exact ⟨by simp [OpenaiToolStream.zero, dsmlSyntaxes], fun h => absurd h (by simp)⟩

/-- Without a block, the last text is all that is left. -/
theorem textStreamSafeLimit_end {raw : Bytes} {start : Nat}
    (h : (if hasTools then findAnyToolStart (raw.drop start) else none) = none) :
    textStreamSafeLimit raw start raw.length hasTools true = raw.length := by
  rcases Nat.lt_or_ge start raw.length with hlt | hge
  · rw [textStreamSafeLimit_none hlt h, utf8StreamSafeLen_final, textLimit_final]
  · unfold textStreamSafeLimit
    rw [if_pos hge]

/-- Text before a block, in the whole text. -/
theorem textUpdate_block {i : Nat} (hlt : st.emitPos < full.length)
    (h : (if hasTools then findAnyToolStart (full.drop st.emitPos) else none) = some i) :
    openaiTextUpdate full full.length hasTools st true =
      ({ st with
        emitPos := st.emitPos + i
        tool := openaiToolStreamInit full full.length (st.emitPos + i)
        mode := if (openaiToolStreamInit full full.length (st.emitPos + i)).active then .tool else .suppress },
        chatDelta full .content st (trimToolSeparatorWs full st.emitPos (st.emitPos + i))) := by
  unfold openaiTextUpdate
  rw [h, textStreamSafeLimit_tool true hlt h]

/-- Text without a block, in the whole text. -/
theorem textUpdate_end (hle : st.emitPos ≤ full.length)
    (h : (if hasTools then findAnyToolStart (full.drop st.emitPos) else none) = none) :
    openaiTextUpdate full full.length hasTools st true =
      ({ st with emitPos := full.length, mode := .suppress }, chatDelta full .content st full.length) := by
  unfold openaiTextUpdate
  rw [h, textStreamSafeLimit_end h]
  dsimp only
  rw [Nat.max_eq_right hle]
  rfl

/-- Text before a block that has arrived is sent as it is in the end. -/
theorem textUpdate_arrived (hnul : NulFree full) (hn : n ≤ full.length) {i : Nat}
    (hcut : (if hasTools then findAnyToolStart ((full.take n).drop st.emitPos) else none) = some i) :
    st.emitPos + i < n ∧
      (if hasTools then findAnyToolStart (full.drop st.emitPos) else none) = some i ∧
      openaiTextUpdate (full.take n) n hasTools st false =
        openaiTextUpdate full full.length hasTools st true := by
  obtain ⟨htools, hfind⟩ := Option.ite_none_right_eq_some.mp hcut
  have hstart := ((toolStart_iff (hnul.take n)).mp hfind).1
  have hin := (hstart.of_take hn).2.2
  have hend : (if hasTools then findAnyToolStart (full.drop st.emitPos) else none) = some i := by
    rw [if_pos htools]
    exact toolStart_take hnul hn hfind
  refine ⟨hin, hend, ?_⟩
  have hlimit := trimToolSeparatorWs_le full st.emitPos (st.emitPos + i)
  unfold openaiTextUpdate
  rw [hcut, hend, textStreamSafeLimit_tool false (by omega) hcut, textStreamSafeLimit_tool true (by omega) hend,
    trimToolSeparatorWs_take (Nat.le_of_lt hin)]
  dsimp only
  rw [chatDelta_take (Nat.le_trans hlimit (Nat.le_of_lt hin)), openaiToolStreamInit_cut hn hstart]

/-- **Text from further on.** What is sent already does not matter if it ends before the white space of
    the block. -/
theorem textUpdate_from (hnul : NulFree full) {p : Nat} (hfrom : st.emitPos ≤ p) (hp : p ≤ full.length)
    (hbefore : ∀ i, hasTools = true → findAnyToolStart (full.drop st.emitPos) = some i →
      p ≤ trimToolSeparatorWs full st.emitPos (st.emitPos + i)) :
    ∃ next stop, p ≤ stop ∧
      openaiTextUpdate full full.length hasTools st true = (next, chatDelta full .content st stop) ∧
      openaiTextUpdate full full.length hasTools { st with emitPos := p } true =
        (next, chatDelta full .content { st with emitPos := p } stop) := by
  cases hend : (if hasTools then findAnyToolStart (full.drop st.emitPos) else none) with
  | some i =>
    obtain ⟨htools, hfind⟩ := Option.ite_none_right_eq_some.mp hend
    obtain ⟨hstart, hfirst⟩ := (toolStart_iff hnul).mp hfind
    have hstop := hbefore i htools hfind
    have hle := trimToolSeparatorWs_le full st.emitPos (st.emitPos + i)
    have hplace : p + (st.emitPos + i - p) = st.emitPos + i := Nat.add_sub_cancel' (by omega)
    -- the same block is the first one from here too
    have hagain : (if hasTools then findAnyToolStart (full.drop p) else none) =
        some (st.emitPos + i - p) := by
      rw [if_pos htools, toolStart_iff hnul, hplace]
      refine ⟨hstart, fun j hj hat => hfirst (p + j - st.emitPos) (by omega) ?_⟩
      rwa [Nat.add_sub_cancel' (by omega : st.emitPos ≤ p + j)]
    have hfit : st.emitPos + i < full.length := by
      obtain ⟨syn, hsyn, hp⟩ := hstart
      have hlen := hp.length_le
      have hone := (headed_toolCallsStart hsyn).length_pos
      rw [List.length_drop] at hlen
      omega
    refine ⟨_, _, hstop, textUpdate_block (by omega) hend, ?_⟩
    have hupdate := @textUpdate_block full hasTools { st with emitPos := p } _
      (show p < full.length by omega) hagain
    dsimp only at hupdate
    rw [hplace, trimToolSeparatorWs_from hfrom hstop] at hupdate
    exact hupdate
  | none =>
    have hagain : (if hasTools then findAnyToolStart (full.drop p) else none) = none := by
      split at hend
      next htools =>
        rw [if_pos htools, toolStart_none_iff hnul]
        intro j
        have hno := (toolStart_none_iff hnul).mp hend (p + j - st.emitPos)
        rwa [Nat.add_sub_cancel' (by omega : st.emitPos ≤ p + j)] at hno
      next htools => rw [if_neg htools]
    exact ⟨_, full.length, hp, textUpdate_end (Nat.le_trans hfrom hp) hend, textUpdate_end hp hagain⟩

/-- **What is held back** of the text. Before a block has arrived, an update goes on to a place that is
    before the white space of the block. -/
theorem textUpdate_open (hfull : Lib.Valid full) (hnul : NulFree full) (hn : n ≤ full.length)
    (hpos : st.emitPos ≤ n)
    (hcut : (if hasTools then findAnyToolStart ((full.take n).drop st.emitPos) else none) = none) :
    ∃ p, st.emitPos ≤ p ∧ p ≤ n ∧
      (∀ i, hasTools = true → findAnyToolStart (full.drop st.emitPos) = some i →
        p ≤ trimToolSeparatorWs full st.emitPos (st.emitPos + i)) ∧
      openaiTextUpdate (full.take n) n hasTools st false =
        ({ st with emitPos := p }, chatDelta full .content st p) := by
  obtain ⟨limit, hlimit⟩ : ∃ limit, limit = textStreamSafeLimit (full.take n) st.emitPos n hasTools false :=
    ⟨_, rfl⟩
  obtain ⟨hfrom, hln, hbefore⟩ : st.emitPos ≤ limit ∧ limit ≤ n ∧
      ∀ i, hasTools = true → findAnyToolStart (full.drop st.emitPos) = some i →
        limit ≤ trimToolSeparatorWs full st.emitPos (st.emitPos + i) := by
    rcases Nat.eq_or_lt_of_le hpos with heq | hlt
    · -- nothing has arrived behind the stream
      have hstay : limit = st.emitPos := by
        rw [hlimit]
        unfold textStreamSafeLimit
        rw [if_pos (Nat.le_of_eq heq.symm), heq]
      rw [hstay]
      exact ⟨Nat.le_refl _, hpos, fun i _ _ =>
        le_trimToolSeparatorWs (Nat.le_add_right _ _) (Or.inl (Nat.le_refl _))⟩
    obtain ⟨hge, hle⟩ := textLimit_bounds hfull (Nat.le_of_lt hlt) (Nat.le_refl n) hasTools false
    have hsafe := @textStreamSafeLimit_none n (full.take n) st.emitPos hasTools false hlt hcut
    have hbounds := utf8StreamSafeLen_bounds (full.take n) hge false
    rw [← hsafe, ← hlimit] at hbounds
    refine ⟨hbounds.1, Nat.le_trans hbounds.2 hle, fun i htools hfind => ?_⟩
    -- with tools, the text is held back from where a marker may begin
    have hstart := ((toolStart_iff hnul).mp hfind).1
    have hhold : textLimit (full.take n) st.emitPos n hasTools false =
        textHoldLimit (full.take n) st.emitPos n := by
      unfold textLimit
      rw [htools]
      rfl
    rw [if_pos htools] at hcut
    rw [hlimit, hsafe, hhold]
    exact textSafeLen_le hn hlt (Nat.le_add_right _ _) hstart
      ((toolStart_none_iff (hnul.take n)).mp hcut i)
  refine ⟨limit, hfrom, hln, hbefore, ?_⟩
  unfold openaiTextUpdate
  rw [hcut, ← hlimit]
  dsimp only
  rw [chatDelta_take hln, Nat.max_eq_right hfrom]
  rfl

/-- **The text block.** -/
theorem text_goes (hasTools : Bool) (hfull : Lib.Valid full) (hnul : NulFree full) (hn : n ≤ full.length)
    (hmode : st.mode = .text) (hact : st.active = true) (hpos : st.emitPos ≤ n) (htool : ToolInv full st.tool) :
    Goes full hasTools st (openaiTextUpdate (full.take n) n hasTools st false) ∧
      (openaiTextUpdate (full.take n) n hasTools st false).1.active = true ∧
      (openaiTextUpdate (full.take n) n hasTools st false).1.emitPos ≤ n ∧
      ToolInv full (openaiTextUpdate (full.take n) n hasTools st false).1.tool := by
  cases hcut : (if hasTools then findAnyToolStart ((full.take n).drop st.emitPos) else none) with
  | some i =>
    obtain ⟨hin, hend, hsame⟩ := textUpdate_arrived hnul hn hcut
    rw [hsame]
    constructor
    · constructor
      · rw [finalUpdate_text hact hmode]
      · rw [finalUpdate_text hact hmode]
        exact Same.refl _
    · unfold openaiTextUpdate
      rw [hend]
      exact ⟨hact, Nat.le_of_lt hin, toolInv_init _ _ _⟩
  | none =>
    obtain ⟨p, hfrom, hpn, hbefore, hupdate⟩ := textUpdate_open hfull hnul hn hpos hcut
    obtain ⟨next, stop, hstop, hblock, hblock'⟩ := textUpdate_from hnul hfrom (Nat.le_trans hpn hn) hbefore
    have hact' : ({ st with emitPos := p } : OpenaiStream).active = true := hact
    have hmode' : ({ st with emitPos := p } : OpenaiStream).mode = .text := hmode
    rw [hupdate]
    refine ⟨?_, hact', hpn, htool⟩
    have h := @finalUpdate_text full hasTools _ hact hmode
    have h' := @finalUpdate_text full hasTools _ hact' hmode'
    rw [hblock] at h
    rw [hblock'] at h'
    exact Goes.fragment (Or.inr rfl) hnul hfrom hstop h h'

/-! ### The tool block -/

/-- **The tool block.** -/
theorem tool_goes (hasTools : Bool) (hfull : Lib.Valid full) (hnul : NulFree full) (hn : n ≤ full.length)
    (hmode : st.mode = .tool) (hact : st.active = true) (htool : ToolInv full st.tool) :
    Goes full hasTools st (openaiToolUpdate (full.take n) n st) ∧
      ToolInv full (openaiToolUpdate (full.take n) n st).1.tool := by
  have hcut := toolRun_cut hfull hnul hn htool
  refine ⟨?_, hcut.inv⟩
  unfold openaiToolUpdate
  dsimp only
  generalize openaiToolStreamUpdate (full.take n) n st.tool = r at hcut ⊢
  have hstart : finalUpdate full hasTools st =
      ({ st with
        tool := (toolRun full r.1).1
        mode := if (toolRun full r.1).1.active then .tool else .suppress }, (toolRun full st.tool).2) := by
    rw [finalUpdate_tool hact hmode, ← hcut.state]
    rfl
  have hnext : finalUpdate full hasTools
        { st with tool := r.1, mode := if r.1.active then .tool else .suppress } =
      ({ st with
        tool := (toolRun full r.1).1
        mode := if (toolRun full r.1).1.active then .tool else .suppress }, (toolRun full r.1).2) := by
    by_cases hgo : r.1.active = true
    · rw [if_pos hgo]
      exact finalUpdate_tool hact rfl
    · -- the block has ended
      rw [if_neg hgo, finalUpdate_suppress rfl, toolRun_stop (by rw [Bool.eq_false_iff.mpr hgo]; rfl),
        if_neg hgo]
  constructor
  · rw [hstart, hnext]
  · rw [hstart, hnext]
    exact hcut.deltas

/-! ### Whole texts -/

/-- **An update** can be followed by the final one. -/
theorem update_goes (hasTools : Bool) (hfull : Lib.Valid full) (hnul : NulFree full) (hn : n ≤ full.length)
    (hpos : st.emitPos ≤ n) (htool : ToolInv full st.tool) :
    Goes full hasTools st (openaiSseStreamUpdate (full.take n) n hasTools st false) ∧
      (openaiSseStreamUpdate (full.take n) n hasTools st false).1.emitPos ≤ n ∧
      ToolInv full (openaiSseStreamUpdate (full.take n) n hasTools st false).1.tool := by
  unfold openaiSseStreamUpdate
  by_cases hact : st.active = false
  · rw [if_pos hact]
    exact ⟨Goes.refl st, hpos, htool⟩
  rw [if_neg hact]
  rw [Bool.not_eq_false] at hact
  dsimp only
  obtain ⟨r1, hr1, hgo1, hact1, hpos1, htool1⟩ : ∃ r1, (if st.mode = .thinking then
      openaiReasoningUpdate (full.take n) n st false else (st, [])) = r1 ∧ Goes full hasTools st r1 ∧
      r1.1.active = true ∧ r1.1.emitPos ≤ n ∧ ToolInv full r1.1.tool := by
    refine ⟨_, rfl, ?_⟩
    by_cases hm : st.mode = .thinking
    · rw [if_pos hm]
      obtain ⟨hgo, hact', hpos', htool'⟩ := reasoning_goes hasTools hnul hn hm hact hpos
      exact ⟨hgo, hact', hpos', htool' ▸ htool⟩
    · rw [if_neg hm]
      exact ⟨Goes.refl st, hact, hpos, htool⟩
  rw [hr1]
  -- the blocks follow one another in one update, each from the state of the one before
  obtain ⟨r2, hr2, hgo2, hact2, hpos2, htool2⟩ : ∃ r2, (if r1.1.mode = .text then
      openaiTextUpdate (full.take n) n hasTools r1.1 false else (r1.1, [])) = r2 ∧ Goes full hasTools r1.1 r2 ∧
      r2.1.active = true ∧ r2.1.emitPos ≤ n ∧ ToolInv full r2.1.tool := by
    refine ⟨_, rfl, ?_⟩
    by_cases hm : r1.1.mode = .text
    · rw [if_pos hm]
      exact text_goes hasTools hfull hnul hn hm hact1 hpos1 htool1
    · rw [if_neg hm]
      exact ⟨Goes.refl r1.1, hact1, hpos1, htool1⟩
  rw [hr2]
  by_cases hm : r2.1.mode = .tool
  · rw [if_pos hm]
    obtain ⟨hgo3, htool3⟩ := tool_goes hasTools hfull hnul hn hm hact2 htool2
    exact ⟨(hgo1.trans hgo2).trans hgo3, hpos2, htool3⟩
  · rw [if_neg hm]
    exact ⟨(hgo1.trans hgo2).trans (Goes.refl r2.1), hpos2, htool2⟩

/-- The updates with the prefixes of some lengths, one after the other. -/
def updates (full : Bytes) (hasTools : Bool) : List Nat → OpenaiStream → OpenaiStream × List Delta
  | [], st      => (st, [])
  | n :: ns, st =>
    let r := openaiSseStreamUpdate (full.take n) n hasTools st false
    let rest := updates full hasTools ns r.1
    (rest.1, r.2 ++ rest.2)

/-- **Updates** can be followed by the final one. -/
theorem updates_goes (hfull : Lib.Valid full) (hnul : NulFree full) {cuts : List Nat}
    (hsorted : (st.emitPos :: cuts).Pairwise (· ≤ ·)) (hle : ∀ n ∈ cuts, n ≤ full.length)
    (htool : ToolInv full st.tool) : Goes full hasTools st (updates full hasTools cuts st) := by
  induction cuts generalizing st with
  | nil => exact Goes.refl st
  | cons n ns ih =>
    obtain ⟨hfirst, hrest⟩ := List.pairwise_cons.mp hsorted
    obtain ⟨hgo, hpos', htool'⟩ := update_goes hasTools hfull hnul (hle n List.mem_cons_self)
      (hfirst n List.mem_cons_self) htool
    refine hgo.trans (ih ?_ (fun m hm => hle m (List.mem_cons_of_mem n hm)) htool')
    obtain ⟨hnext, hrest⟩ := List.pairwise_cons.mp hrest
    exact List.pairwise_cons.mpr ⟨fun m hm => Nat.le_trans hpos' (hnext m hm), hrest⟩

/-- All that is sent of a text that arrives in pieces, with the state at the end. -/
def streamed (full : Bytes) (hasTools think : Bool) (cuts : List Nat) : OpenaiStream × List Delta :=
  let r := updates full hasTools cuts (openaiStreamStart think)
  let last := finalUpdate full hasTools r.1
  (last.1, r.2 ++ last.2)

/-- **Every split** of a text gives the response of the text that arrives at once, and the same end. -/
theorem streamed_once (hfull : Lib.Valid full) (hnul : NulFree full) (hasTools think : Bool) {cuts : List Nat}
    (hsorted : cuts.Pairwise (· ≤ ·)) (hle : ∀ n ∈ cuts, n ≤ full.length) :
    (streamed full hasTools think cuts).1 = (finalUpdate full hasTools (openaiStreamStart think)).1 ∧
      Same (streamed full hasTools think cuts).2 (finalUpdate full hasTools (openaiStreamStart think)).2 := by
  have hgo : Goes full hasTools (openaiStreamStart think) (updates full hasTools cuts (openaiStreamStart think)) :=
    updates_goes hfull hnul (List.pairwise_cons.mpr ⟨fun m _ => Nat.zero_le m, hsorted⟩) hle
      (streamInv_start hfull think).tool
  exact ⟨hgo.state, hgo.deltas.symm⟩

/-- **Any two splits** of a text give the same response: reasoning, content, calls in their order and the
    arguments of each, and the stream ends in one state. -/
theorem stream_chunks (hfull : Lib.Valid full) (hnul : NulFree full) (hasTools think : Bool) {cuts cuts' : List Nat}
    (hsorted : cuts.Pairwise (· ≤ ·)) (hle : ∀ n ∈ cuts, n ≤ full.length)
    (hsorted' : cuts'.Pairwise (· ≤ ·)) (hle' : ∀ n ∈ cuts', n ≤ full.length) :
    (streamed full hasTools think cuts).1 = (streamed full hasTools think cuts').1 ∧
      Same (streamed full hasTools think cuts).2 (streamed full hasTools think cuts').2 := by
  obtain ⟨hstate, hsame⟩ := streamed_once hfull hnul hasTools think hsorted hle
  obtain ⟨hstate', hsame'⟩ := streamed_once hfull hnul hasTools think hsorted' hle'
  exact ⟨hstate.trans hstate'.symm, hsame.trans hsame'.symm⟩

/-- A turn that is cut inside a tag and inside an entity. -/
theorem stream_chunks_entity :
    let full := lit "a</think>b <tool_calls><invoke name=\"f\"><parameter name=\"x\" string=\"true\">&lt;</parameter></invoke>"
    (streamed full true true [4, 12, 76]).1 = (streamed full true true []).1 ∧
      Same (streamed full true true [4, 12, 76]).2 (streamed full true true []).2 := by
  intro full
  have hfull : Lib.Valid full := valid_lit _
  have hnul : NulFree full := by
    show ∀ c ∈ full, c ≠ 0
    decide +kernel
  have hlength : 76 ≤ full.length := by decide +kernel
  refine stream_chunks hfull hnul true true (by decide) ?_ List.Pairwise.nil (fun _ hn => absurd hn List.not_mem_nil)
  intro n hn
  simp only [List.mem_cons, List.not_mem_nil, or_false] at hn
  rcases hn with rfl | rfl | rfl
  · omega
  · omega
  · exact hlength

end DS4.Server
