import DS4.Agent.DsmlCalls
import Mathlib.Data.List.TakeWhile

namespace DS4.Agent.Dsml

/-!
# Agent — the text of a block

* `Piece.Ok`, `next`, `Block` — what the pieces of a block look like, and the order they come in.
* `step_piece` — a step consumes a piece; `piece_step` — a piece is consumed by a step.
* `Reads`, `reads_runs` — the pieces of a parser are the text up to its position.
* `runs_pieces` — the pieces of a text are consumed, one by one.
* `search_found`, `feeds_bytes` — where a block starts, and texts that are fed in parts.
* `done_iff` — the parser is done when it has read a block.
-/

open DS4.Tokenizer DS4.Lib

variable {s t u : Bytes} {i n : Nat} {p q : Parser}

/-! ### Pieces -/

/-- A text up to its first `>`. -/
def OneTag (tag : Bytes) : Prop := ∃ u, tag = u ++ ['>'.toUInt8] ∧ '>'.toUInt8 ∉ u ∧ 0 ∉ u

/-- What a piece looks like; a value ends at the first accepted spelling of its closing tag. -/
def Piece.Ok : Piece → Prop
  | .blank c         => isBlank c = true
  | .invoke tag      => INVOKE_START <+: tag ∧ OneTag tag ∧ (parseAttr tag (lit "name")).isSome = true
  | .param tag       => PARAM_START <+: tag ∧ OneTag tag ∧ (parseAttr tag (lit "name")).isSome = true
  | .value v close   => findCloseTag (v ++ close) (lit "parameter") = some (v.length, close.length)
  | .invokeEnd close => Spelling (lit "invoke") close
  | .blockEnd close  => Spelling (lit "tool_calls") close

/-- Where a piece is allowed, and what comes next. -/
def next : State → Piece → Option State
  | .structural, .blank _     => some .structural
  | .structural, .invoke _    => some .structural
  | .structural, .param _     => some .paramValue
  | .paramValue, .value _ _   => some .structural
  | .structural, .invokeEnd _ => some .structural
  | .structural, .blockEnd _  => some .done
  | _, _                      => none

/-- The pieces behind the start of a block, up to its end. -/
def Block (ps : List Piece) : Prop := (∀ x ∈ ps, x.Ok) ∧ ps.foldlM next .structural = some .done

def texts (ps : List Piece) : Bytes := ps.flatMap Piece.text

theorem cstr_stop {c : UInt8} (hu : 0 ∉ u) (hc : c ≠ 0) (r : Bytes) : cstr (u ++ c :: r) = u ++ c :: cstr r := by
  have hall : ∀ d ∈ u, decide (d ≠ 0) = true := fun d hd => decide_eq_true fun heq => hu (heq ▸ hd)
  unfold cstr
  rw [List.takeWhile_append_of_pos hall, List.takeWhile_cons, if_pos (decide_eq_true hc)]

theorem zero_notMem_cstr (s : Bytes) : 0 ∉ cstr s := by
  intro hmem
  unfold cstr at hmem
  exact absurd (List.mem_takeWhile_imp hmem) (by decide)

theorem cstr_split (s : Bytes) : ∃ r, s = cstr s ++ r :=
  ⟨s.dropWhile (fun c => c ≠ 0), List.takeWhile_append_dropWhile.symm⟩

/-- **The end of a tag.** -/
theorem strstr_gt_iff : strstr s (lit ">") = some i ↔ ∃ u r, s = u ++ '>'.toUInt8 :: r ∧ '>'.toUInt8 ∉ u ∧ 0 ∉ u ∧
    i = u.length := by
  have hlit : lit ">" = ['>'.toUInt8] := by decide
  unfold strstr
  rw [hlit, findSub_singleton_iff]
  constructor
  · rintro ⟨u, r, heq, hu, rfl⟩
    obtain ⟨r', hs⟩ := cstr_split s
    refine ⟨u, r ++ r', ?_, hu, fun hmem => zero_notMem_cstr s (heq ▸ List.mem_append_left _ hmem), rfl⟩
    rw [hs, heq, List.append_assoc]
    rfl
  · rintro ⟨u, r, rfl, hu, hzero, rfl⟩
    exact ⟨u, cstr r, cstr_stop hzero (by decide) r, hu, rfl⟩

theorem close_name_starts {name : Bytes} (h : closeTagAt s name = some n) : CLOSE ++ name <+: s := by
  obtain ⟨t, r, rfl, ⟨b₁, bar, b₂, -, -, -, rfl⟩, -⟩ := (closeTagAt_iff).mp h
  refine ⟨b₁ ++ bar ++ b₂ ++ ['>'.toUInt8] ++ r, ?_⟩
  simp only [List.append_assoc]

/-- Two starts that differ. -/
theorem closeTagAt_none {a name : Bytes} (ha : a <+: s) (h : ¬ a <+: CLOSE ++ name) (h' : ¬ CLOSE ++ name <+: a) :
    closeTagAt s name = none := by
  cases hc : closeTagAt s name with
  | none => rfl
  | some n => exact absurd (List.prefix_or_prefix_of_prefix ha (close_name_starts hc)) (not_or.mpr ⟨h, h'⟩)

theorem OneTag.strstr {tag : Bytes} (h : OneTag tag) (r : Bytes) :
    strstr (tag ++ r) (lit ">") = some (tag.length - 1) := by
  obtain ⟨u, rfl, hu, hzero⟩ := h
  refine (strstr_gt_iff).mpr ⟨u, r, by rw [List.append_assoc]; rfl, hu, hzero, ?_⟩
  rw [List.length_append]
  rfl

theorem OneTag.length_pos {tag : Bytes} (h : OneTag tag) : 0 < tag.length := by
  obtain ⟨u, rfl, -⟩ := h
  rw [List.length_append]
  exact Nat.succ_pos _

/-- A tag that is complete. -/
theorem oneTag_take (h : strstr s (lit ">") = some i) : OneTag (s.take (i + 1)) := by
  obtain ⟨u, r, rfl, hu, hzero, rfl⟩ := (strstr_gt_iff).mp h
  refine ⟨u, ?_, hu, hzero⟩
  rw [List.take_append, List.take_of_length_le (Nat.le_succ _), Nat.add_sub_cancel_left]
  rfl

/-- A value up to its end. -/
theorem value_ok (h : findCloseTag s (lit "parameter") = some (i, n)) :
    (Piece.value (s.take i) ((s.drop i).take n)).Ok := by
  have hzero : 0 ∉ lit "parameter" := by decide
  have hfit := (findCloseTag_spec h).1
  rw [findCloseTag_eq hzero] at h
  have hle : i + n ≤ (cstr s).length := (firstClose_gt (by decide) h).2
  obtain ⟨r, hr⟩ := cstr_split s
  have htake : s.take (i + n) = (cstr s).take (i + n) := by
    conv_lhs => rw [hr]
    exact List.take_append_of_le_length hle
  have hself : cstr ((cstr s).take (i + n)) = (cstr s).take (i + n) := by
    refine List.takeWhile_eq_self_iff.mpr fun c hc => decide_eq_true fun heq => ?_
    exact zero_notMem_cstr s (heq ▸ List.mem_of_mem_take hc)
  show findCloseTag (s.take i ++ (s.drop i).take n) _ = some ((s.take i).length, ((s.drop i).take n).length)
  rw [← List.take_add, htake, findCloseTag_eq hzero, hself, firstClose_take h, List.length_take, List.length_take,
    List.length_drop, Nat.min_eq_left (by omega), Nat.min_eq_left (by omega)]

/-! ### Steps and pieces -/

/-- **A step** consumes a piece, or is an error that consumes nothing. -/
theorem step_piece (hwf : p.Wf) (h : p.step = some q) :
    (q.state = .error ∧ q.consumed = p.consumed ∧ q.raw = p.raw ∧ q.parsePos = p.parsePos) ∨
    ∃ x : Piece, x.Ok ∧ next p.state x = some q.state ∧ q.consumed = p.consumed ++ [x] ∧ q.raw = p.raw ∧
      q.parsePos = p.parsePos + x.text.length ∧ x.text <+: p.rest := by
  obtain ⟨hst, i, n, hfind, rfl⟩ | ⟨hst, c, t, hrest, hc, rfl⟩ | ⟨hst, n, hclose, rfl⟩ | ⟨hst, n, hclose, rfl⟩ |
    ⟨hst, k, hgt, rfl⟩ := step_cases h
  · have hpos := hwf.2 hst
    have hfit := (findCloseTag_spec hfind).1
    rw [hpos] at hfind hfit
    have hle : i + n ≤ p.rest.length := hfit
    have htext : p.rest.take i ++ (p.rest.drop i).take n = p.rest.take (i + n) := List.take_add.symm
    refine Or.inr ⟨.value (p.rest.take i) ((p.rest.drop i).take n), value_ok hfind, by rw [hst]; rfl, ?_, rfl, ?_, ?_⟩
    · show p.consumed ++ [.value ((p.raw.drop p.paramValueStart).take i) _] = _
      rw [hpos]
      rfl
    · show p.paramValueStart + i + n = p.parsePos + (p.rest.take i ++ (p.rest.drop i).take n).length
      rw [htext, List.length_take, Nat.min_eq_left hle, hpos, Nat.add_assoc]
    · show p.rest.take i ++ (p.rest.drop i).take n <+: p.rest
      rw [htext]
      exact List.take_prefix _ _
  · have hnext : next p.state (.blank c) = some p.state := by rw [hst]; rfl
    exact Or.inr ⟨.blank c, hc, hnext, rfl, rfl, rfl, t, hrest.symm⟩
  · obtain ⟨x, r, hx, hspell, rfl⟩ := (closeTagAt_iff).mp hclose
    rw [hx, List.take_left]
    exact Or.inr ⟨.blockEnd x, hspell, by rw [hst]; rfl, rfl, rfl, rfl, List.prefix_append x r⟩
  · obtain ⟨x, r, hx, hspell, rfl⟩ := (closeTagAt_iff).mp hclose
    rw [hx, List.take_left]
    exact Or.inr ⟨.invokeEnd x, hspell, by rw [hst]; rfl, rfl, rfl, rfl, List.prefix_append x r⟩
  · have htag := oneTag_take hgt
    have htake := List.take_prefix (k + 1) p.rest
    generalize p.rest.take (k + 1) = tag at htag htake ⊢
    obtain ⟨name, hpre, hname, heq⟩ | ⟨name, hpre, hname, heq⟩ | ⟨herror, hconsumed, hraw, hpos, -⟩ :=
      openTag_cases p tag
    · have hok : (Piece.invoke tag).Ok := ⟨List.isPrefixOf_iff_prefix.mp hpre, htag, by rw [hname]; rfl⟩
      have hnext : next p.state (.invoke tag) = some p.state := by rw [hst]; rfl
      rw [heq]
      exact Or.inr ⟨.invoke tag, hok, hnext, rfl, rfl, rfl, htake⟩
    · have hok : (Piece.param tag).Ok := ⟨List.isPrefixOf_iff_prefix.mp hpre, htag, by rw [hname]; rfl⟩
      rw [heq]
      exact Or.inr ⟨.param tag, hok, by rw [hst]; rfl, rfl, rfl, rfl, htake⟩
    · exact Or.inl ⟨herror, hconsumed, hraw, hpos⟩

/-- A tag is no blank. -/
theorem step_tag {c : UInt8} (hst : p.state = .structural) (hrest : p.rest = c :: t) (hc : isBlank c = false) :
    p.step = p.tagStep := by
  unfold Parser.step
  rw [hst]
  dsimp only
  rw [hrest]
  dsimp only
  rw [if_neg (by rw [hc]; exact nofun)]

theorem tag_head {a tag : Bytes} (ha : a <+: tag) (hhead : a.head? = some '<'.toUInt8) (r : Bytes) :
    ∃ t, tag ++ r = '<'.toUInt8 :: t := by
  obtain ⟨b, rfl⟩ := ha
  cases a with
  | nil => exact absurd hhead nofun
  | cons c a =>
    obtain rfl := Option.some.inj hhead
    exact ⟨a ++ b ++ r, rfl⟩

theorem tagStep_open {tag r : Bytes} (hrest : p.rest = tag ++ r) (hcalls : closeTagAt p.rest (lit "tool_calls") = none)
    (hinvoke : closeTagAt p.rest (lit "invoke") = none) (htag : OneTag tag) : p.tagStep = some (p.openTag tag) := by
  have hgt := htag.strstr r
  have hsucc : tag.length - 1 + 1 = tag.length := Nat.sub_add_cancel htag.length_pos
  rw [← hrest] at hgt
  unfold Parser.tagStep
  rw [hcalls]
  dsimp only
  rw [hinvoke]
  dsimp only
  rw [hgt]
  dsimp only
  rw [hsucc, hrest, List.take_left]

theorem rest_advance {r : Bytes} (h : p.rest = t ++ r) : p.raw.drop (p.parsePos + t.length) = r := by
  rw [← List.drop_drop]
  show p.rest.drop t.length = r
  rw [h, List.drop_left]

/-- **A piece** that is allowed is consumed. -/
theorem piece_step (hwf : p.Wf) {x : Piece} {st : State} {r : Bytes} (hx : x.Ok) (hnext : next p.state x = some st)
    (hrest : p.rest = x.text ++ r) :
    ∃ q, p.step = some q ∧ q.state = st ∧ q.consumed = p.consumed ++ [x] ∧ q.rest = r := by
  have hlt : isBlank '<'.toUInt8 = false := by decide
  cases hst : p.state with
  | structural =>
    rw [hst] at hnext
    cases x with
    | blank c =>
      obtain rfl := Option.some.inj hnext
      have hstep : p.step = some (p.advance (.blank c)) := by
        unfold Parser.step
        rw [hst]
        dsimp only
        rw [hrest]
        exact if_pos hx
      exact ⟨_, hstep, hst, rfl, rest_advance hrest⟩
    | invoke tag =>
      obtain rfl := Option.some.inj hnext
      obtain ⟨hpre, htag, hname⟩ := hx
      replace hrest : p.rest = tag ++ r := hrest
      obtain ⟨name, hname⟩ := Option.isSome_iff_exists.mp hname
      have hpre' : INVOKE_START <+: p.rest := hrest ▸ hpre.trans (List.prefix_append tag r)
      obtain ⟨t, ht⟩ := tag_head hpre (by decide) r
      have hopen : p.openTag tag = p.openCall tag name := by
        unfold Parser.openTag
        rw [if_pos (List.isPrefixOf_iff_prefix.mpr hpre), hname]
        rfl
      have hstep : p.step = some (p.openCall tag name) := by
        rw [step_tag hst (hrest.trans ht) hlt, tagStep_open hrest (closeTagAt_none hpre' (by decide) (by decide))
          (closeTagAt_none hpre' (by decide) (by decide)) htag, hopen]
      exact ⟨_, hstep, hst, rfl, rest_advance hrest⟩
    | param tag =>
      obtain rfl := Option.some.inj hnext
      obtain ⟨hpre, htag, hname⟩ := hx
      replace hrest : p.rest = tag ++ r := hrest
      obtain ⟨name, hname⟩ := Option.isSome_iff_exists.mp hname
      have hpre' : PARAM_START <+: p.rest := hrest ▸ hpre.trans (List.prefix_append tag r)
      obtain ⟨t, ht⟩ := tag_head hpre (by decide) r
      have hno : ¬ INVOKE_START.isPrefixOf tag = true := by
        rw [List.isPrefixOf_iff_prefix]
        exact fun h => absurd (List.prefix_or_prefix_of_prefix h hpre) (by decide)
      have hopen : p.openTag tag = p.openValue tag name := by
        unfold Parser.openTag
        rw [if_neg hno, if_pos (List.isPrefixOf_iff_prefix.mpr hpre), hname]
        rfl
      have hstep : p.step = some (p.openValue tag name) := by
        rw [step_tag hst (hrest.trans ht) hlt, tagStep_open hrest (closeTagAt_none hpre' (by decide) (by decide))
          (closeTagAt_none hpre' (by decide) (by decide)) htag, hopen]
      exact ⟨_, hstep, rfl, rfl, rest_advance hrest⟩
    | value v close => exact absurd hnext nofun
    | invokeEnd close =>
      obtain rfl := Option.some.inj hnext
      have hpos : closeTagAt p.rest (lit "invoke") = some close.length :=
        (closeTagAt_iff).mpr ⟨close, r, hrest, hx, rfl⟩
      have hno : closeTagAt p.rest (lit "tool_calls") = none :=
        closeTagAt_none (close_name_starts hpos) (by decide) (by decide)
      obtain ⟨t, ht⟩ := tag_head (close_name_starts hpos) (by decide) []
      rw [List.append_nil] at ht
      have hstep : p.step = some (p.endCall (.invokeEnd close) .structural) := by
        rw [step_tag hst ht hlt]
        unfold Parser.tagStep
        rw [hno]
        dsimp only
        rw [hpos, hrest]
        dsimp only
        rw [show (Piece.invokeEnd close).text = close from rfl, List.take_left]
      exact ⟨_, hstep, rfl, rfl, rest_advance hrest⟩
    | blockEnd close =>
      obtain rfl := Option.some.inj hnext
      have hpos : closeTagAt p.rest (lit "tool_calls") = some close.length :=
        (closeTagAt_iff).mpr ⟨close, r, hrest, hx, rfl⟩
      obtain ⟨t, ht⟩ := tag_head (close_name_starts hpos) (by decide) []
      rw [List.append_nil] at ht
      have hstep : p.step = some (p.endCall (.blockEnd close) .done) := by
        rw [step_tag hst ht hlt]
        unfold Parser.tagStep
        rw [hpos, hrest]
        dsimp only
        rw [show (Piece.blockEnd close).text = close from rfl, List.take_left]
      exact ⟨_, hstep, rfl, rfl, rest_advance hrest⟩
  | paramValue =>
    rw [hst] at hnext
    cases x with
    | value v close =>
      obtain rfl := Option.some.inj hnext
      have hpos := hwf.2 hst
      have hzero : 0 ∉ lit "parameter" := by decide
      have hfind : findCloseTag p.rest (lit "parameter") = some (v.length, close.length) := by
        have hown : findCloseTag (v ++ close) (lit "parameter") = some (v.length, close.length) := hx
        rw [findCloseTag_eq hzero] at hown ⊢
        rw [hrest]
        exact firstClose_cstr_append (by decide) hown r
      have hdrop : p.raw.drop p.paramValueStart = v ++ (close ++ r) := by
        rw [hpos, ← List.append_assoc]
        exact hrest
      have hstep : p.step = some (p.endValue v.length close.length) := by
        unfold Parser.step
        rw [hst]
        dsimp only
        rw [hpos]
        show (findCloseTag p.rest _).map _ = _
        rw [hfind]
        rfl
      refine ⟨_, hstep, rfl, ?_, ?_⟩
      · unfold Parser.endValue
        dsimp only
        rw [hdrop, List.take_left, List.drop_left, List.take_left]
      · show p.raw.drop (p.paramValueStart + v.length + close.length) = r
        rw [hpos, Nat.add_assoc, ← List.length_append]
        exact rest_advance hrest
    | _ => exact absurd hnext nofun
  | search =>
    rw [hst] at hnext
    cases x <;> exact absurd hnext nofun
  | done =>
    rw [hst] at hnext
    cases x <;> exact absurd hnext nofun
  | error =>
    rw [hst] at hnext
    cases x <;> exact absurd hnext nofun

/-! ### Texts and pieces -/

/-- The pieces of a parser are the text up to its position, in an order that is allowed. -/
def Parser.Reads (p : Parser) : Prop :=
  p.Wf ∧ p.raw.take p.parsePos = START ++ texts p.consumed ∧ (∀ x ∈ p.consumed, x.Ok) ∧
    (p.state ≠ .error → p.consumed.foldlM next .structural = some p.state)

theorem next_not_error {st : State} {x : Piece} (h : next p.state x = some st) : p.state ≠ .error := by
  intro herror
  rw [herror] at h
  cases x <;> exact absurd h nofun

theorem next_snoc (ps : List Piece) (x : Piece) (st : State) :
    (ps ++ [x]).foldlM next st = (ps.foldlM next st).bind (next · x) := by
  rw [List.foldlM_append]
  simp only [List.foldlM_cons, List.foldlM_nil, bind_pure]
  rfl

theorem texts_snoc (ps : List Piece) (x : Piece) : texts (ps ++ [x]) = texts ps ++ x.text := by
  unfold texts
  rw [List.flatMap_append, List.flatMap_singleton]

/-- **A step** reads on. -/
theorem reads_step (h : p.step = some q) (hp : p.Reads) : q.Reads := by
  obtain ⟨hwf, htake, hok, hchain⟩ := hp
  refine ⟨(step_todo hwf h).1, ?_⟩
  obtain ⟨herror, hconsumed, hraw, hpos⟩ | ⟨x, hx, hnext, hconsumed, hraw, hpos, htext⟩ := step_piece hwf h
  · rw [hconsumed, hraw, hpos]
    exact ⟨htake, hok, fun hne => absurd herror hne⟩
  · obtain ⟨r, hr⟩ := htext
    rw [hconsumed, hraw, hpos]
    refine ⟨?_, List.forall_mem_append.mpr ⟨hok, List.forall_mem_singleton.mpr hx⟩, fun _ => ?_⟩
    · rw [List.take_add, htake, texts_snoc, ← List.append_assoc]
      show _ ++ p.rest.take _ = _
      rw [← hr, List.take_left]
    · rw [next_snoc, hchain (next_not_error hnext)]
      exact hnext

theorem reads_runs (h : Runs Parser.step p q) (hp : p.Reads) : q.Reads :=
  @Runs.invariant _ Parser.step p q Parser.Reads (fun _ _ hstep hs => reads_step hstep hs) h hp

theorem runs_raw (hwf : p.Wf) (h : Runs Parser.step p q) : q.raw = p.raw := by
  refine (@Runs.invariant _ Parser.step p q (fun q => q.Wf ∧ q.raw = p.raw) (fun s t hstep hs => ?_) h ⟨hwf, rfl⟩).2
  refine ⟨(step_todo hs.1 hstep).1, ?_⟩
  obtain ⟨-, -, hraw, -⟩ | ⟨x, -, -, -, hraw, -⟩ := step_piece hs.1 hstep
  · exact hraw.trans hs.2
  · exact hraw.trans hs.2

/-- **Pieces** that stand in the text are consumed one by one. -/
theorem runs_pieces {ps : List Piece} {st : State} {r : Bytes} (hwf : p.Wf) (hok : ∀ x ∈ ps, x.Ok)
    (hnext : ps.foldlM next p.state = some st) (hrest : p.rest = texts ps ++ r) :
    ∃ q, Runs Parser.step p q ∧ q.state = st ∧ q.consumed = p.consumed ++ ps := by
  induction ps generalizing p with
  | nil => exact ⟨p, Runs.refl p, Option.some.inj hnext, (List.append_nil _).symm⟩
  | cons x ps ih =>
    obtain ⟨st', hst', hnext'⟩ := Option.bind_eq_some_iff.mp hnext
    have htext : p.rest = x.text ++ (texts ps ++ r) := by
      rw [hrest, ← List.append_assoc]
      rfl
    obtain ⟨p', hstep, hstate, hconsumed, hrest'⟩ := piece_step hwf (hok x List.mem_cons_self) hst' htext
    obtain ⟨q, hruns, hq, hconsumed'⟩ := @ih p' (step_todo hwf hstep).1
      (fun y hy => hok y (List.mem_cons_of_mem x hy)) (hstate.symm ▸ hnext') hrest'
    refine ⟨q, Runs.head hstep hruns, hq, ?_⟩
    rw [hconsumed', hconsumed, List.append_assoc]
    rfl

/-! ### The start of a block -/

/-- A parser that looks for a block. -/
def searching (tail : Bytes) : Parser := { Parser.init with searchTail := tail }

/-- A parser behind the start of a block. -/
def started : Parser := { Parser.init with state := .structural, raw := START, parsePos := START.length }

/-- The last bytes of a text. -/
def IsTail (t s : Bytes) : Prop := t <:+ s ∧ t.length = min 64 s.length

theorem isTail_snoc (h : IsTail t s) (c : UInt8) :
    IsTail ((if t.length = 64 then t.tail else t) ++ [c]) (s ++ [c]) := by
  obtain ⟨⟨b, rfl⟩, hlen⟩ := h
  rw [List.length_append] at hlen
  constructor
  · rw [List.append_assoc]
    split_ifs
    · refine List.IsSuffix.trans ?_ (List.suffix_append b (t ++ [c]))
      obtain ⟨a, ha⟩ := t.tail_suffix
      exact ⟨a, by rw [← List.append_assoc, ha]⟩
    · exact List.suffix_append b (t ++ [c])
  · rw [List.length_append, List.length_append, List.length_append, List.length_singleton]
    split_ifs with hfull
    · rw [List.length_tail]
      omega
    · omega

theorem start_tail (h : IsTail t s) : START <:+ t ↔ START <:+ s := by
  refine ⟨fun hstart => hstart.trans h.1, fun hstart => List.suffix_of_suffix_length_le hstart h.1 ?_⟩
  have hle := hstart.length_le
  have hstartlen : START.length = 22 := by decide
  rw [h.2]
  omega

theorem feedByte_searching (t : Bytes) (c : UInt8) :
    feedByte (searching t) c =
      if START.isSuffixOf ((if t.length = 64 then t.tail else t) ++ [c]) then started
      else searching ((if t.length = 64 then t.tail else t) ++ [c]) := rfl

/-- No block has started. -/
theorem search_nothing (h : ∀ b, b <+: s → ¬ START <:+ b) :
    ∃ t, s.foldl feedByte Parser.init = searching t ∧ IsTail t s := by
  induction s using List.reverseRecOn with
  | nil => exact ⟨[], rfl, List.suffix_refl [], rfl⟩
  | append_singleton s c ih =>
    obtain ⟨t, ht, htail⟩ := ih fun b hb => h b (hb.trans (List.prefix_append s [c]))
    have hno := h (s ++ [c]) (List.prefix_refl _)
    rw [← start_tail (isTail_snoc htail c), ← List.isSuffixOf_iff_suffix] at hno
    refine ⟨_, ?_, isTail_snoc htail c⟩
    rw [List.foldl_append, ht]
    show feedByte (searching t) c = _
    rw [feedByte_searching, if_neg hno]

theorem search_not_found (h : findSub START s = none) : ∃ t, s.foldl feedByte Parser.init = searching t := by
  obtain ⟨t, ht, -⟩ := @search_nothing s fun b hb ⟨x, hx⟩ => by
    obtain ⟨y, rfl⟩ := hb
    subst hx
    refine (findSub_eq_none_iff).mp h x.length ?_ ?_
    · rw [List.append_assoc, List.length_append]
      exact Nat.le_add_right _ _
    · rw [List.append_assoc, List.drop_left]
      exact List.prefix_append START y
  exact ⟨t, ht⟩

/-- **The first start** of a block is found. -/
theorem search_found (h : findSub START s = some i) :
    s.foldl feedByte Parser.init = (s.drop (i + START.length)).foldl feedByte started := by
  have hstart : START = START.dropLast ++ ['>'.toUInt8] := by decide
  have hlen : START.dropLast.length + 1 = START.length := by decide
  have hsplit := findSub_split h
  generalize s.drop (i + START.length) = r at hsplit ⊢
  obtain ⟨hi, -, hmin⟩ := (findSub_eq_some_iff).mp h
  -- everything up to the last byte of the start
  have hnothing : ∀ b, b <+: s.take i ++ START.dropLast → ¬ START <:+ b := by
    rintro _ ⟨y, hy⟩ ⟨x, rfl⟩
    have hcount := congrArg List.length hy
    rw [List.length_append, List.length_append, List.length_append, List.length_take, Nat.min_eq_left hi] at hcount
    refine hmin x.length (by omega) ?_
    have hwhole : s = x ++ (START ++ (y ++ ['>'.toUInt8] ++ r)) := by
      conv_lhs => rw [hsplit, hstart]
      rw [← List.append_assoc (s.take i), ← hy]
      simp only [List.append_assoc]
    rw [hwhole, List.drop_left]
    exact List.prefix_append _ _
  obtain ⟨t, ht, htail⟩ := search_nothing hnothing
  have hfound := (start_tail (isTail_snoc htail '>'.toUInt8)).mpr (by
    rw [List.append_assoc, ← hstart]
    exact List.suffix_append _ _)
  conv_lhs => rw [hsplit, hstart]
  rw [← List.append_assoc (s.take i), List.append_assoc, List.foldl_append, ht, List.foldl_append]
  show r.foldl feedByte (feedByte (searching t) _) = _
  rw [feedByte_searching, if_pos (List.isSuffixOf_iff_suffix.mpr hfound)]

/-! ### Texts that are fed in parts -/

/-- A parser that was fed some texts. -/
def fed (feeds : List Bytes) : Parser := feeds.foldl agentDsmlFeed Parser.init

/-- A parser with more text behind it. -/
def Parser.more (p : Parser) (r : Bytes) : Parser := { p with raw := p.raw ++ r }

theorem step_none (h : p.state = .search ∨ p.state = .done ∨ p.state = .error) : p.step = none := by
  unfold Parser.step
  rcases h with h | h | h <;> rw [h]

/-- **Done and error** absorb: the parser does not change … -/
theorem feed_absorbed (h : p.state = .done ∨ p.state = .error) (s : Bytes) : agentDsmlFeed p s = p := if_pos h

/-- … but for the bytes that are left of a text. -/
theorem foldl_absorbed (h : p.state = .done ∨ p.state = .error) (s : Bytes) : s.foldl feedByte p = p.more s := by
  have hst : p.state ≠ .search := by
    rcases h with h | h <;> rw [h] <;> exact nofun
  have hruns := feed_runs hst s
  exact hruns.eq_of_stuck (step_none (Or.inr h))

theorem feeds_absorbed (h : p.state = .done ∨ p.state = .error) (feeds : List Bytes) :
    feeds.foldl agentDsmlFeed p = p := by
  induction feeds with
  | nil => rfl
  | cons s feeds ih =>
    rw [List.foldl_cons, feed_absorbed h]
    exact ih

theorem more_nil (p : Parser) : p.more [] = p := by
  show ({ p with raw := p.raw ++ [] } : Parser) = p
  rw [List.append_nil]

/-- **The parts** of a text: a parser that has not ended is where the whole text leads. -/
theorem feeds_bytes (feeds : List Bytes) (p : Parser) :
    ∃ r, feeds.flatten.foldl feedByte p = (feeds.foldl agentDsmlFeed p).more r ∧
      (r = [] ∨ (feeds.foldl agentDsmlFeed p).state = .done ∨ (feeds.foldl agentDsmlFeed p).state = .error) := by
  induction feeds generalizing p with
  | nil => exact ⟨[], (more_nil p).symm, Or.inl rfl⟩
  | cons s feeds ih =>
    by_cases h : p.state = .done ∨ p.state = .error
    · rw [feeds_absorbed h]
      exact ⟨_, foldl_absorbed h _, Or.inr h⟩
    · have hfeed : agentDsmlFeed p s = s.foldl feedByte p := if_neg h
      rw [List.flatten_cons, List.foldl_append, List.foldl_cons, hfeed]
      exact ih _

theorem started_wf (r : Bytes) : (started.more r).Wf := by
  refine ⟨?_, nofun⟩
  show START.length ≤ (START ++ r).length
  rw [List.length_append]
  exact Nat.le_add_right _ _

theorem started_reads (r : Bytes) : (started.more r).Reads := by
  refine ⟨started_wf r, ?_, nofun, fun _ => rfl⟩
  show (START ++ r).take START.length = START ++ []
  rw [List.take_left, List.append_nil]

theorem started_keeps (r : Bytes) : (started.more r).Keeps := fun _ => ⟨kept_init, nofun⟩

/-- **What a fed parser is**: still looking for a block, or as far as the first block allows; bytes behind the end of
    a block may be missing. -/
theorem fed_spec (feeds : List Bytes) :
    (findSub START feeds.flatten = none ∧ (fed feeds).state = .search) ∨
    ∃ i r, findSub START feeds.flatten = some i ∧
      Runs Parser.step (started.more (feeds.flatten.drop (i + START.length))) ((fed feeds).more r) ∧
      ((fed feeds).more r).step = none ∧ (r = [] ∨ (fed feeds).state = .done ∨ (fed feeds).state = .error) := by
  obtain ⟨r, hbytes, hr⟩ := feeds_bytes feeds Parser.init
  cases hfind : findSub START feeds.flatten with
  | none =>
    obtain ⟨t, ht⟩ := search_not_found hfind
    have hstate := congrArg Parser.state (ht.symm.trans hbytes)
    exact Or.inl ⟨rfl, hstate.symm⟩
  | some i =>
    have hwf := started_wf []
    rw [more_nil] at hwf
    have hruns := feed_runs (p := started) nofun (feeds.flatten.drop (i + START.length))
    have hstop := feed_stops (p := started) nofun hwf (by decide) (feeds.flatten.drop (i + START.length))
    rw [search_found hfind] at hbytes
    rw [hbytes] at hruns hstop
    exact Or.inr ⟨i, r, rfl, hruns, hstop, hr⟩

/-- **Every feed ends** where nothing is left to parse. -/
theorem fed_stuck (feeds : List Bytes) : (fed feeds).step = none := by
  obtain ⟨-, hsearch⟩ | ⟨i, r, -, -, hstop, hr⟩ := fed_spec feeds
  · exact step_none (Or.inl hsearch)
  rcases hr with rfl | hr
  · rw [more_nil] at hstop
    exact hstop
  · exact step_none (Or.inr hr)

/-- The first block of a text, piece by piece. -/
def HasBlock (s : Bytes) (ps : List Piece) : Prop :=
  ∃ before after, s = before ++ START ++ texts ps ++ after ∧ findSub START s = some before.length ∧ Block ps

/-- **A block** is read piece by piece … -/
theorem fed_of_block {feeds : List Bytes} {ps : List Piece} (h : HasBlock feeds.flatten ps) :
    (fed feeds).state = .done ∧ (fed feeds).consumed = ps := by
  obtain ⟨before, after, hsplit, hfind, hok, hchain⟩ := h
  obtain ⟨hnone, -⟩ | ⟨i, r, hi, hruns, hstop, -⟩ := fed_spec feeds
  · exact absurd (hnone.symm.trans hfind) nofun
  obtain rfl := Option.some.inj (hi.symm.trans hfind)
  have hrest : (started.more (feeds.flatten.drop (before.length + START.length))).rest = texts ps ++ after := by
    show (START ++ _).drop START.length = _
    rw [List.drop_left, hsplit, ← List.length_append, List.append_assoc, List.drop_left]
  obtain ⟨q, hq, hstate, hconsumed⟩ := runs_pieces (started_wf _) hok hchain hrest
  have hqstop : q.step = none := step_none (Or.inr (Or.inl hstate))
  have heq := hruns.unique hq hstop hqstop
  exact ⟨(congrArg Parser.state heq).trans hstate, (congrArg Parser.consumed heq).trans hconsumed⟩

/-- … and the parser is done only where there is one. -/
theorem block_of_done {feeds : List Bytes} (hdone : (fed feeds).state = .done) :
    HasBlock feeds.flatten (fed feeds).consumed := by
  obtain ⟨-, hsearch⟩ | ⟨i, r, hi, hruns, -⟩ := fed_spec feeds
  · exact absurd (hdone.symm.trans hsearch) nofun
  have hraw := runs_raw (started_wf _) hruns
  obtain ⟨-, htake, hok, hchain⟩ := reads_runs hruns (started_reads _)
  rw [hraw] at htake
  have hlen : (feeds.flatten.take i).length = i := by
    rw [List.length_take, Nat.min_eq_left ((findSub_eq_some_iff).mp hi).1]
  refine ⟨feeds.flatten.take i, (started.more (feeds.flatten.drop (i + START.length))).raw.drop
    ((fed feeds).more r).parsePos, ?_, hlen.symm ▸ hi, hok, ?_⟩
  · have hwhole : START ++ feeds.flatten.drop (i + START.length) = START ++ texts (fed feeds).consumed ++
        (started.more (feeds.flatten.drop (i + START.length))).raw.drop ((fed feeds).more r).parsePos :=
      (List.take_append_drop ((fed feeds).more r).parsePos _).symm.trans (congrArg (· ++ _) htake)
    conv_lhs => rw [findSub_split hi]
    rw [List.append_assoc, hwhole]
    simp only [List.append_assoc]
  · rw [show ((fed feeds).more r).consumed = (fed feeds).consumed from rfl] at hchain
    exact (hchain (fun herror => absurd (hdone.symm.trans herror) nofun)).trans (congrArg some hdone)

/-- A text has one way to be read. -/
theorem hasBlock_unique {ps ps' : List Piece} (h : HasBlock s ps) (h' : HasBlock s ps') : ps = ps' := by
  have hflat : [s].flatten = s := List.append_nil s
  rw [← hflat] at h h'
  exact (fed_of_block h).2.symm.trans (fed_of_block h').2

/-- **Done** exactly on blocks. -/
theorem done_iff (feeds : List Bytes) : (fed feeds).state = .done ↔ ∃ ps, HasBlock feeds.flatten ps :=
  ⟨fun h => ⟨_, block_of_done h⟩, fun ⟨_, h⟩ => (fed_of_block h).1⟩

/-- **The calls** of a block are all there exactly if its tags are nested. -/
theorem calls_iff {feeds : List Bytes} {ps : List Piece} (h : HasBlock feeds.flatten ps) :
    intended ps = some (fed feeds).calls ↔ Nested ps := by
  obtain ⟨hdone, rfl⟩ := fed_of_block h
  obtain ⟨-, hsearch⟩ | ⟨i, r, -, hruns, -⟩ := fed_spec feeds
  · exact absurd (hdone.symm.trans hsearch) nofun
  · have hkeeps : ((fed feeds).more r).Keeps := keeps_runs hruns (started_keeps _)
    exact keeps_done hkeeps hdone

end DS4.Agent.Dsml
