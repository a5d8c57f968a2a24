import DS4.Server.JsonStrings
import DS4.Server.ThinkingTags
import DS4.Server.ToolBlock

namespace DS4.Server

open Lib (HasWord)

/-!
# Server — what the final parse makes of a message

* `BlockOf`, `parseMessage_iff` — a message has no block, or one that is read.
* `findLast_eq_some_iff` — the last `</think>`.
* `parsed_message_text` — **nothing is lost**: the text is the reasoning, the content and the block, in this order.
* `parsed_calls_thinking` — a block is executed behind the last `</think>` only; what the live guard says there.
-/

variable {syn : DsmlSyntax} {text s t raw rest : Bytes} {closed : Bool} {pos i k : Nat} {m : Message}
  {cs : List (Bytes × List JsonArg)}

/-! ### Messages -/

/-- The block of a message: where it starts, its bytes, what follows it and its calls. -/
structure BlockOf (text : Bytes) (closed : Bool) (pos : Nat) (raw rest : Bytes) (cs : List (Bytes × List JsonArg)) :
    Prop where
  found : ∃ k i syn j, toolSearch text closed = some k ∧ findBlock (text.drop k) = some (i, syn) ∧ pos = k + i ∧
    strstr (text.drop pos) syn.toolCallsStart = some j ∧
    CallsAt syn ((text.drop pos).drop (j + syn.toolCallsStart.length)) cs rest
  bytes : raw ++ rest = text.drop pos

theorem findBlock_spec (h : findBlock s = some (i, syn)) :
    ∃ opening, (opening, syn) ∈ blockOpenings ∧ strstr s opening = some i := by
  obtain ⟨o, ho, heq⟩ := List.exists_of_findSome?_eq_some h
  obtain ⟨i', hi', heq⟩ := Option.map_eq_some_iff.mp heq
  obtain ⟨rfl, rfl⟩ := Prod.mk.inj heq
  exact ⟨o.1, ho, hi'⟩

/-- A block has at least its opening. -/
theorem BlockOf.raw_ne_nil (h : BlockOf text closed pos raw rest cs) : raw ≠ [] := by
  obtain ⟨k, i, syn, j, -, hfind, -, hj, hcs⟩ := h.found
  have hopenings : ∀ o ∈ blockOpenings, 0 < o.2.toolCallsStart.length := by decide +kernel
  obtain ⟨opening, hopening, -⟩ := findBlock_spec hfind
  have hpos := hopenings _ hopening
  have hle := hcs.suffix.length_le
  have hfit := Lib.findSub_length_le hj
  have hcstr : (cstr (text.drop pos)).length ≤ (text.drop pos).length := (List.takeWhile_prefix _).length_le
  rintro rfl
  have hlen := congrArg List.length h.bytes
  rw [List.nil_append] at hlen
  rw [List.length_drop] at hle
  dsimp only at hpos
  omega

/-- The message of a block. -/
def blockMessage (text : Bytes) (pos : Nat) (raw : Bytes) (cs : List (Bytes × List JsonArg)) : Message :=
  let split := splitReasoningContent (text.take (trimToolSeparatorWs text 0 pos))
  ⟨split.1, split.2, ⟨cs.map callOf, raw⟩⟩

theorem parseBlock_iff {start : Bytes} {calls : List ToolCall} :
    parseBlock syn start = some (raw, calls) ↔
      ∃ j rest cs, strstr start syn.toolCallsStart = some j ∧
        CallsAt syn (start.drop (j + syn.toolCallsStart.length)) cs rest ∧ raw ++ rest = start ∧ calls = cs.map callOf := by
  have hcut : ∀ {rest : Bytes}, rest <:+ start → start.take (start.length - rest.length) ++ rest = start := by
    rintro rest ⟨u, rfl⟩
    rw [List.length_append, Nat.add_sub_cancel, List.take_left]
  unfold parseBlock
  cases hstr : strstr start syn.toolCallsStart with
  | none => simp
  | some j =>
    have hloop : ∀ rest out, blockLoop syn ((start.drop (j + syn.toolCallsStart.length)).length + 1)
        (start.drop (j + syn.toolCallsStart.length)) [] = some (rest, out) ↔
          ∃ cs, CallsAt syn (start.drop (j + syn.toolCallsStart.length)) cs rest ∧ out = cs.map callOf :=
      fun rest out => blockLoop_iff (Nat.lt_succ_self _)
    dsimp only
    constructor
    · intro h
      obtain ⟨⟨rest, out⟩, hrun, heq⟩ := Option.map_eq_some_iff.mp h
      obtain ⟨rfl, rfl⟩ := Prod.mk.inj heq
      obtain ⟨cs, hcs, rfl⟩ := (hloop rest out).mp hrun
      exact ⟨j, rest, cs, rfl, hcs, hcut (hcs.suffix.trans (List.drop_suffix _ _)), rfl⟩
    · rintro ⟨j', rest, cs, hj, hcs, hraw, rfl⟩
      obtain rfl := Option.some.inj hj
      rw [(hloop rest _).mpr ⟨cs, hcs, rfl⟩, Option.map_some]
      have htake : start.take (start.length - rest.length) = raw := by
        rw [← hraw, List.length_append, Nat.add_sub_cancel, List.take_left]
      rw [htake]

/-- **A message** has no block, or one that is read. -/
theorem parseMessage_iff :
    parseMessage text closed = some m ↔
      ((∀ k, toolSearch text closed = some k → findBlock (text.drop k) = none) ∧ m = plainMessage text) ∨
        ∃ pos raw rest cs, BlockOf text closed pos raw rest cs ∧ m = blockMessage text pos raw cs := by
  unfold parseMessage
  cases hsearch : toolSearch text closed with
  | none =>
    constructor
    · intro h
      exact Or.inl ⟨nofun, (Option.some.inj h).symm⟩
    · rintro (⟨-, rfl⟩ | ⟨pos, raw, rest, cs, ⟨⟨k, i, syn, j, hk, -⟩, -⟩, -⟩)
      · rfl
      · exact absurd (hsearch.symm.trans hk) nofun
  | some k =>
    dsimp only
    cases hfind : findBlock (text.drop k) with
    | none =>
      constructor
      · intro h
        refine Or.inl ⟨fun k' hk' => ?_, (Option.some.inj h).symm⟩
        rw [← Option.some.inj hk']
        exact hfind
      · rintro (⟨-, rfl⟩ | ⟨pos, raw, rest, cs, ⟨⟨k', i, syn, j, hk, hi, -⟩, -⟩, -⟩)
        · rfl
        · rw [← Option.some.inj (hsearch.symm.trans hk), hfind] at hi
          exact absurd hi nofun
    | some found =>
      obtain ⟨i, syn⟩ := found
      dsimp only
      constructor
      · intro h
        obtain ⟨⟨raw, calls⟩, hblock, rfl⟩ := Option.map_eq_some_iff.mp h
        obtain ⟨j, rest, cs, hj, hcs, hraw, rfl⟩ := parseBlock_iff.mp hblock
        exact Or.inr ⟨k + i, raw, rest, cs, ⟨⟨k, i, syn, j, hsearch, hfind, rfl, hj, hcs⟩, hraw⟩, rfl⟩
      · rintro (⟨hnone, -⟩ | ⟨pos, raw, rest, cs, ⟨⟨k', i', syn', j, hk, hi, rfl, hj, hcs⟩, hraw⟩, rfl⟩)
        · exact absurd (hfind.symm.trans (hnone k rfl)) nofun
        · obtain rfl := Option.some.inj (hsearch.symm.trans hk)
          obtain ⟨rfl, rfl⟩ := Prod.mk.inj (Option.some.inj (hfind.symm.trans hi))
          rw [parseBlock_iff.mpr ⟨j, rest, cs, hj, hcs, hraw, rfl⟩, Option.map_some]
          rfl

/-! ### Nothing is lost -/

/-- The reasoning, up to its tag. -/
def reasoningText (reasoning : Option Bytes) : Bytes :=
  match reasoning with
  | some r => r ++ THINK_END
  | none   => []

/-- **Reasoning and content** are a text together, without a `<think>` in front. -/
theorem splitReasoningContent_spec (hs : 0 ∉ s) :
    ∃ opening, (opening = [] ∨ opening = THINK_START) ∧
      s = opening ++ reasoningText (splitReasoningContent s).2 ++ (splitReasoningContent s).1 ∧
      ((splitReasoningContent s).2 = none → opening = []) ∧
      ∀ r, (splitReasoningContent s).2 = some r → ¬ THINK_END <:+: r := by
  -- the text behind the tag
  have hbody : ∃ opening body, (opening = [] ∨ opening = THINK_START) ∧ s = opening ++ body ∧
      (strstr body THINK_END = none → splitReasoningContent s = (s, none)) ∧
      ∀ i, strstr body THINK_END = some i →
        splitReasoningContent s = (body.drop (i + THINK_END.length), some (body.take i)) := by
    by_cases hstart : THINK_START.isPrefixOf s = true
    · obtain ⟨body, rfl⟩ := List.isPrefixOf_iff_prefix.mp hstart
      refine ⟨THINK_START, body, Or.inr rfl, rfl, fun hnone => ?_, fun i hi => ?_⟩
      · unfold splitReasoningContent
        simp only [if_pos hstart, List.drop_left, hnone]
      · unfold splitReasoningContent
        simp only [if_pos hstart, List.drop_left, hi]
    · refine ⟨[], s, Or.inl rfl, rfl, fun hnone => ?_, fun i hi => ?_⟩
      · unfold splitReasoningContent
        simp only [if_neg hstart, hnone]
      · unfold splitReasoningContent
        simp only [if_neg hstart, hi]
  obtain ⟨opening, body, hopening, rfl, hnone, hsome⟩ := hbody
  cases hfind : strstr body THINK_END with
  | none =>
    rw [hnone hfind]
    exact ⟨[], Or.inl rfl, rfl, fun _ => rfl, nofun⟩
  | some i =>
    rw [hsome i hfind]
    unfold strstr at hfind
    rw [cstr_eq_self fun h0 => hs (List.mem_append_right _ h0)] at hfind
    refine ⟨opening, hopening, ?_, nofun, fun r hr => ?_⟩
    · have hsplit := Lib.findSub_split hfind
      show opening ++ body = opening ++ (body.take i ++ THINK_END) ++ body.drop (i + THINK_END.length)
      rw [List.append_assoc, ← hsplit]
    · obtain rfl := Option.some.inj hr
      obtain ⟨-, -, hfirst⟩ := Lib.findSub_eq_some_iff.mp hfind
      rintro ⟨x, y, hxy⟩
      have hlen := congrArg List.length hxy
      have htag : THINK_END.length = 8 := by decide
      rw [List.length_append, List.length_append, htag, List.length_take] at hlen
      refine hfirst x.length (by omega) ?_
      rw [← List.take_append_drop i body, ← hxy, List.append_assoc, List.append_assoc, List.drop_left]
      exact List.prefix_append _ _

/-- White space is trimmed. -/
theorem trimToolSeparatorWs_space (s : Bytes) (limit : Nat) :
    trimToolSeparatorWs s 0 limit ≤ limit ∧
      ∀ c ∈ (s.take limit).drop (trimToolSeparatorWs s 0 limit), isspace c = true := by
  induction limit with
  | zero => exact ⟨Nat.le_refl _, fun c hc => by simp at hc⟩
  | succ limit ih =>
    rw [trimToolSeparatorWs]
    by_cases htrim : 0 < limit + 1 ∧ isspace (s.getD limit 0)
    · rw [if_pos htrim]
      refine ⟨Nat.le_succ_of_le ih.1, fun c hc => ?_⟩
      rw [List.take_add_one, List.drop_append] at hc
      rcases List.mem_append.mp hc with hc | hc
      · exact ih.2 c hc
      · have hget : s[limit]? = some c := by simpa using List.mem_of_mem_drop hc
        rw [List.getD_eq_getElem?_getD, hget] at htrim
        exact htrim.2
    · rw [if_neg htrim]
      refine ⟨Nat.le_refl _, fun c hc => ?_⟩
      rw [List.drop_eq_nil_of_le (by rw [List.length_take]; omega)] at hc
      exact absurd hc List.not_mem_nil

/-- **Nothing is lost.**  The text of a message is its reasoning, its content and its block, in this order; only a
    `<think>` in front, the tag behind the reasoning, white space and what follows the block are left out. -/
theorem parsed_message_text (text : Bytes) (closed : Bool) (m : Message)
    (h : parseGeneratedMessageEx text closed = some m) :
    ∃ opening sep rest, (opening = [] ∨ opening = THINK_START) ∧ (∀ c ∈ sep, isspace c = true) ∧
      cstr text = opening ++ reasoningText m.reasoning ++ m.content ++ sep ++ m.calls.rawDsml ++ rest ∧
      (m.reasoning = none → opening = []) ∧ (∀ r, m.reasoning = some r → ¬ THINK_END <:+: r) ∧
      (m.calls.rawDsml = [] → m.calls.v = [] ∧ sep = [] ∧ rest = []) := by
  have hnul : 0 ∉ cstr text := zero_notMem_cstr text
  rcases parseMessage_iff.mp h with ⟨-, rfl⟩ | ⟨pos, raw, rest, cs, hblock, rfl⟩
  · obtain ⟨opening, hopening, htext, hnone, hfirst⟩ := splitReasoningContent_spec hnul
    refine ⟨opening, [], [], hopening, fun c hc => absurd hc List.not_mem_nil, ?_, hnone, hfirst, fun _ => ⟨rfl, rfl, rfl⟩⟩
    show cstr text = _ ++ [] ++ [] ++ []
    rw [List.append_nil, List.append_nil, List.append_nil]
    exact htext
  · obtain ⟨hle, hspace⟩ := trimToolSeparatorWs_space (cstr text) pos
    have hnul' : 0 ∉ (cstr text).take (trimToolSeparatorWs (cstr text) 0 pos) := fun h0 =>
      hnul (List.mem_of_mem_take h0)
    obtain ⟨opening, hopening, htext, hnone, hfirst⟩ := splitReasoningContent_spec hnul'
    refine ⟨opening, ((cstr text).take pos).drop (trimToolSeparatorWs (cstr text) 0 pos), rest, hopening, hspace, ?_, hnone,
      hfirst, ?_⟩
    · generalize hcut : trimToolSeparatorWs (cstr text) 0 pos = cut at hle htext
      have htrim : (cstr text).take cut ++ ((cstr text).take pos).drop cut = (cstr text).take pos := by
        have hsplit := List.take_append_drop cut ((cstr text).take pos)
        rwa [List.take_take, Nat.min_eq_left hle] at hsplit
      unfold blockMessage
      dsimp only
      rw [hcut, ← htext, htrim, List.append_assoc, hblock.bytes, List.take_append_drop]
    · exact fun hraw => absurd hraw hblock.raw_ne_nil

theorem parsed_message_text_sample :
    ∃ opening sep rest, (opening = [] ∨ opening = THINK_START) ∧ (∀ c ∈ sep, isspace c = true) ∧
      cstr (lit "<think>a</think>b \n\n<tool_calls></tool_calls>c") =
        opening ++ reasoningText (some (lit "a")) ++ lit "b" ++ sep ++ lit "\n\n<tool_calls></tool_calls>" ++ rest ∧
      (some (lit "a") = none → opening = []) ∧ (∀ r, some (lit "a") = some r → ¬ THINK_END <:+: r) ∧
      (lit "\n\n<tool_calls></tool_calls>" = [] → ([] : List ToolCall) = [] ∧ sep = [] ∧ rest = []) :=
  parsed_message_text (lit "<think>a</think>b \n\n<tool_calls></tool_calls>c") true
    ⟨lit "b", some (lit "a"), ⟨[], lit "\n\n<tool_calls></tool_calls>"⟩⟩ (by decide +kernel)

/-! ### Thinking -/

variable {before between : Bytes}

/-- A tag that ends behind a `</think>` starts behind it. -/
theorem thinkTags_apart {w x y : Bytes} (hw : w ∈ thinkTags) (h : before ++ THINK_END ++ between = x ++ w ++ y)
    (hy : y.length < between.length) : w <:+: between := by
  have htags : ∀ w ∈ thinkTags, w[0]? = some '<'.toUInt8 ∧ 7 ≤ w.length ∧ w.length ≤ 8 := by decide +kernel
  have hinner : ∀ d < 8, 0 < d → THINK_END[d]? ≠ some '<'.toUInt8 := by decide +kernel
  have htag : THINK_END.length = 8 := by decide
  obtain ⟨hhead, hmin, hmax⟩ := htags w hw
  have hlen := congrArg List.length h
  simp only [List.length_append, htag] at hlen
  have hbehind : before.length + 8 ≤ x.length := by
    by_contra hlt
    -- its first byte would be one of the tag's
    have hget : (x ++ w ++ y)[x.length]? = some '<'.toUInt8 := by
      rw [List.append_assoc, List.getElem?_append_right (Nat.le_refl _), Nat.sub_self,
        List.getElem?_append_left (by omega), hhead]
    rw [← h, List.append_assoc, List.getElem?_append_right (by omega), List.getElem?_append_left (by omega)] at hget
    exact hinner (x.length - before.length) (by omega) (by omega) hget
  have hdrop := congrArg (List.drop (before.length + 8)) h
  have hlen' : (before ++ THINK_END).length = before.length + 8 := by rw [List.length_append, htag]
  rw [← hlen', List.drop_left, hlen', List.append_assoc, List.drop_append_of_le_length hbehind] at hdrop
  exact ⟨x.drop (before.length + 8), y, by rw [hdrop, List.append_assoc]⟩

/-- Behind the last `</think>` the text is thinking just behind a `<think>`. -/
theorem thinking_iff (inside : Bool) (hlast : ¬ THINK_END <:+: between) :
    Thinking inside (before ++ THINK_END ++ between) ↔ THINK_START <:+: between := by
  have hend : HasWord thinkTags (before ++ THINK_END ++ between) := ⟨THINK_END, end_mem_thinkTags, before, between, rfl⟩
  constructor
  · rintro (⟨-, x, y, heq, hmin⟩ | ⟨hnone, -⟩)
    · have hle := hmin THINK_END end_mem_thinkTags before between rfl
      by_cases hlt : y.length < between.length
      · exact thinkTags_apart start_mem_thinkTags heq hlt
      · have hcut := (List.append_inj' heq (by omega)).1
        have hsame := thinkTags_suffixFree.eq end_mem_thinkTags start_mem_thinkTags ⟨before, rfl⟩ ⟨x, hcut.symm⟩
        exact absurd hsame.symm thinkTags_spec.2.1
    · exact absurd hend hnone
  · rintro ⟨u, y₀, hbetween⟩
    left
    obtain ⟨t, hlastWord⟩ := hend.last
    obtain ⟨ht, x, y, heq, hmin⟩ := hlastWord
    have hstart : before ++ THINK_END ++ between = (before ++ THINK_END ++ u) ++ THINK_START ++ y₀ := by
      rw [← hbetween]
      simp only [List.append_assoc]
    have hle := hmin THINK_START start_mem_thinkTags _ _ hstart
    have hlen := congrArg List.length hbetween
    rw [List.length_append, List.length_append, show THINK_START.length = 7 by decide] at hlen
    rcases List.mem_pair.mp ht with rfl | rfl
    · exact ⟨ht, x, y, heq, hmin⟩
    · exact absurd (thinkTags_apart end_mem_thinkTags heq (by omega)) hlast

/-- **A block is executed** behind the last `</think>` only.  Where it stands, the live guard takes it for thinking, in
    whatever pieces the text comes, just when a `<think>` that is not closed stands in front of it. -/
theorem parsed_calls_thinking (text : Bytes) (m : Message) (h : parseGeneratedMessageEx text true = some m)
    (hcalls : m.calls.rawDsml ≠ []) :
    ∃ before between rest, cstr text = before ++ THINK_END ++ between ++ m.calls.rawDsml ++ rest ∧
      ¬ THINK_END <:+: between ++ m.calls.rawDsml ++ rest ∧
      ∀ (inside : Bool) (chunks : List Bytes), chunks.flatten = before ++ THINK_END ++ between →
        ((chunks.foldl ThinkingState.feed ⟨inside, []⟩).inside = true ↔ THINK_START <:+: between) := by
  rcases parseMessage_iff.mp h with ⟨-, rfl⟩ | ⟨pos, raw, rest, cs, hblock, rfl⟩
  · exact absurd rfl hcalls
  obtain ⟨k, i, syn, j, hsearch, -, rfl, -, -⟩ := hblock.found
  have htag : THINK_END.length = 8 := by decide
  unfold toolSearch at hsearch
  rw [if_pos rfl] at hsearch
  obtain ⟨k₀, hlast, rfl⟩ := Option.map_eq_some_iff.mp hsearch
  unfold findLastSubstr at hlast
  rw [if_neg (by decide), cstr_eq_self (zero_notMem_cstr text)] at hlast
  obtain ⟨hle, ⟨behind, hbehind⟩, hmax⟩ := (Lib.findLast_spec THINK_END (cstr text)).2 k₀ hlast
  have htext : cstr text = (cstr text).take k₀ ++ THINK_END ++ behind := by
    rw [List.append_assoc, hbehind, List.take_append_drop]
  have hdrop : (cstr text).drop (k₀ + THINK_END.length) = behind := by
    rw [← List.drop_drop, ← hbehind, List.drop_left]
  have hraw : behind.take i ++ raw ++ rest = behind := by
    rw [List.append_assoc, hblock.bytes, ← List.drop_drop, hdrop, List.take_append_drop]
  -- a tag behind it would be a later one
  have hno : ¬ THINK_END <:+: behind := by
    rintro ⟨u, v, huv⟩
    have hlen := congrArg List.length htext
    have hlen' := congrArg List.length huv
    simp only [List.length_append, htag, List.length_take, Nat.min_eq_left hle] at hlen hlen'
    refine hmax (k₀ + THINK_END.length + u.length) (by omega) (by omega) ?_
    rw [← List.drop_drop, hdrop, ← huv, List.append_assoc, List.drop_left]
    exact List.prefix_append _ _
  refine ⟨(cstr text).take k₀, behind.take i, rest, ?_, ?_, fun inside chunks hchunks => ?_⟩
  · show cstr text = _ ++ THINK_END ++ behind.take i ++ raw ++ rest
    rw [List.append_assoc _ (behind.take i) raw, List.append_assoc _ (behind.take i ++ raw) rest, hraw]
    exact htext
  · show ¬ THINK_END <:+: behind.take i ++ raw ++ rest
    rw [hraw]
    exact hno
  · have hguard := ((tracksTags_nil inside).feedAll chunks).inside
    rw [hguard, List.nil_append, hchunks]
    exact thinking_iff inside fun hin => hno (hin.trans (List.take_prefix i behind).isInfix)

/-- A block behind a `<think>` that is not closed. -/
theorem parsed_calls_thinking_open :
    ∃ before between rest,
      cstr (lit "</think>a<think><tool_calls><invoke name=\"f\"></invoke></tool_calls>") =
        before ++ THINK_END ++ between ++ lit "<tool_calls><invoke name=\"f\"></invoke></tool_calls>" ++ rest ∧
      ¬ THINK_END <:+: between ++ lit "<tool_calls><invoke name=\"f\"></invoke></tool_calls>" ++ rest ∧
      ∀ (inside : Bool) (chunks : List Bytes), chunks.flatten = before ++ THINK_END ++ between →
        ((chunks.foldl ThinkingState.feed ⟨inside, []⟩).inside = true ↔ THINK_START <:+: between) :=
  parsed_calls_thinking (lit "</think>a<think><tool_calls><invoke name=\"f\"></invoke></tool_calls>")
    ⟨lit "a<think>", some [], ⟨[⟨lit "f", lit "\x7b\x7d"⟩], lit "<tool_calls><invoke name=\"f\"></invoke></tool_calls>"⟩⟩
    (by decide +kernel) (by decide)

end DS4.Server
