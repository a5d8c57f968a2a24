import DS4.Agent.DsmlTags
import DS4.Lib.Incremental

namespace DS4.Agent.Dsml

/-!
# Agent — parsing piece by piece

* `Parser.step` — one piece of the text, if it is complete; `step_cases` — all steps.
* `step_push` — what can be parsed can be parsed the same way when there is more text.
* `parse_runs`, `parse_stops` — parsing is stepping as long as it goes.
* `feed_runs` — a text fed byte by byte.
-/

open DS4.Tokenizer DS4.Lib

variable {s t u name : Bytes} {i n : Nat}

/-! ### One piece at a time -/

/-- One piece of the text, if it is complete. -/
def Parser.step (p : Parser) : Option Parser :=
  match p.state with
  | .paramValue => (findCloseTag (p.raw.drop p.paramValueStart) (lit "parameter")).map fun r => p.endValue r.1 r.2
  | .structural =>
    match p.rest with
    | []     => none
    | c :: _ => if isBlank c then some (p.advance (.blank c)) else p.tagStep
  | _ => none

section

variable {p q : Parser} {c : UInt8}

theorem rest_push (h : p.parsePos ≤ p.raw.length) (c : UInt8) : (p.push c).rest = p.rest ++ [c] :=
  List.drop_append_of_le_length h

theorem rest_of_ne_nil (h : p.rest ≠ []) : p.parsePos < p.raw.length := by
  by_contra hle
  exact h (List.drop_eq_nil_of_le (Nat.le_of_not_lt hle))

/-- An opening tag does not depend on the rest of the text. -/
theorem openTag_push (p : Parser) (tag : Bytes) (c : UInt8) : (p.push c).openTag tag = (p.openTag tag).push c := by
  unfold Parser.openTag
  split_ifs
  · cases parseAttr tag (lit "name") <;> rfl
  · cases parseAttr tag (lit "name") <;> rfl
  · rfl

theorem endCall_push (p : Parser) (piece : Piece) (st : State) (c : UInt8) :
    (p.push c).endCall piece st = (p.endCall piece st).push c := rfl

/-- The end of a value that is inside the text. -/
theorem endValue_push (h : i + n ≤ (p.raw.drop p.paramValueStart).length) (hstart : p.paramValueStart ≤ p.raw.length)
    (c : UInt8) : (p.push c).endValue i n = (p.endValue i n).push c := by
  have hdrop : (p.push c).raw.drop (p.push c).paramValueStart = p.raw.drop p.paramValueStart ++ [c] :=
    List.drop_append_of_le_length hstart
  have htake : (p.raw.drop p.paramValueStart ++ [c]).take i = (p.raw.drop p.paramValueStart).take i :=
    List.take_append_of_le_length (by omega)
  have hclose : ((p.raw.drop p.paramValueStart ++ [c]).drop i).take n =
      ((p.raw.drop p.paramValueStart).drop i).take n := by
    rw [List.drop_append_of_le_length (by omega), List.take_append_of_le_length]
    rw [List.length_drop]
    omega
  unfold Parser.endValue
  dsimp only
  rw [hdrop, htake, hclose]
  rfl

theorem strstr_append (h : strstr s u = some i) (t : Bytes) : strstr (s ++ t) u = some i :=
  findSub_takeWhile_append h t

theorem strstr_le (h : strstr s u = some i) : i + u.length ≤ s.length :=
  Nat.le_trans (findSub_length_le h) (List.takeWhile_sublist _).length_le

theorem gt_mem_of_strstr (h : strstr s (lit ">") = some i) : '>'.toUInt8 ∈ s := by
  obtain ⟨hi, ⟨r, hr⟩, -⟩ := (findSub_eq_some_iff).mp h
  have hmem : '>'.toUInt8 ∈ (cstr s).drop i := by
    rw [← hr]
    exact List.mem_append_left r (List.mem_singleton.mpr rfl)
  exact (List.takeWhile_sublist _).mem (List.mem_of_mem_drop hmem)

/-- **More text** does not change a tag. -/
theorem tagStep_push (hpos : p.parsePos ≤ p.raw.length) (h : p.tagStep = some q) (c : UInt8) :
    (p.push c).tagStep = some (q.push c) := by
  have hcalls : '>'.toUInt8 ∉ lit "tool_calls" := by decide
  have hinvoke : '>'.toUInt8 ∉ lit "invoke" := by decide
  unfold Parser.tagStep at h ⊢
  rw [rest_push hpos]
  cases hc : closeTagAt p.rest (lit "tool_calls") with
  | some n =>
    rw [hc] at h
    rw [closeTagAt_append hcalls (gt_mem_of_closeTagAt hcalls hc), hc]
    dsimp only
    rw [List.take_append_of_le_length (closeTagAt_le hc), endCall_push]
    exact congrArg (Option.map (Parser.push · c)) h
  | none =>
    rw [hc] at h
    dsimp only at h
    cases hi : closeTagAt p.rest (lit "invoke") with
    | some n =>
      rw [hi] at h
      have hgt := gt_mem_of_closeTagAt hinvoke hi
      rw [closeTagAt_append hcalls hgt, hc]
      dsimp only
      rw [closeTagAt_append hinvoke hgt, hi]
      dsimp only
      rw [List.take_append_of_le_length (closeTagAt_le hi), endCall_push]
      exact congrArg (Option.map (Parser.push · c)) h
    | none =>
      rw [hi] at h
      dsimp only at h
      cases hk : strstr p.rest (lit ">") with
      | none =>
        rw [hk] at h
        exact absurd h nofun
      | some k =>
        rw [hk] at h
        have hgt := gt_mem_of_strstr hk
        have hle : k + 1 ≤ p.rest.length := strstr_le hk
        rw [closeTagAt_append hcalls hgt, hc]
        dsimp only
        rw [closeTagAt_append hinvoke hgt, hi]
        dsimp only
        rw [strstr_append hk]
        dsimp only
        rw [List.take_append_of_le_length hle, openTag_push]
        exact congrArg (Option.map (Parser.push · c)) h

/-- **More text** does not change a step. -/
theorem step_push (p q : Parser) (c : UInt8) (h : p.step = some q) : (p.push c).step = some (q.push c) := by
  have hname : '>'.toUInt8 ∉ lit "parameter" := by decide
  have hzero : 0 ∉ lit "parameter" := by decide
  unfold Parser.step at h ⊢
  show (match p.state with | .paramValue => _ | .structural => _ | _ => none) = _
  cases hst : p.state with
  | paramValue =>
    rw [hst] at h
    obtain ⟨r, hr, rfl⟩ := Option.map_eq_some_iff.mp h
    rw [findCloseTag_eq hzero] at hr
    have hfit : r.1 + r.2 ≤ (p.raw.drop p.paramValueStart).length :=
      Nat.le_trans (firstClose_gt hname hr).2 (List.takeWhile_sublist _).length_le
    have hstart : p.paramValueStart ≤ p.raw.length := by
      by_contra hle
      rw [List.drop_eq_nil_of_le (by omega)] at hr
      exact absurd hr nofun
    have hdrop : (p.push c).raw.drop p.paramValueStart = p.raw.drop p.paramValueStart ++ [c] :=
      List.drop_append_of_le_length hstart
    show (findCloseTag ((p.push c).raw.drop p.paramValueStart) (lit "parameter")).map
      (fun r => (p.push c).endValue r.1 r.2) = _
    rw [hdrop, findCloseTag_eq hzero, firstClose_cstr_append hname hr, Option.map_some,
      endValue_push hfit hstart]
  | structural =>
    rw [hst] at h
    dsimp only at h ⊢
    cases hrest : p.rest with
    | nil =>
      rw [hrest] at h
      exact absurd h nofun
    | cons d t =>
      rw [hrest] at h
      dsimp only at h
      have hpos := rest_of_ne_nil (by rw [hrest]; exact List.cons_ne_nil d t)
      rw [rest_push (Nat.le_of_lt hpos), hrest, List.cons_append]
      dsimp only
      by_cases hblank : isBlank d = true
      · rw [if_pos hblank] at h ⊢
        obtain rfl := Option.some.inj h
        rfl
      · rw [if_neg hblank] at h ⊢
        exact tagStep_push (Nat.le_of_lt hpos) h c
  | search =>
    rw [hst] at h
    exact absurd h nofun
  | done =>
    rw [hst] at h
    exact absurd h nofun
  | error =>
    rw [hst] at h
    exact absurd h nofun

/-- A call is opened. -/
def Parser.openCall (p : Parser) (tag name : Bytes) : Parser :=
  { p.advance (.invoke tag) with current := ⟨some name, []⟩ }

/-- A value is opened. -/
def Parser.openValue (p : Parser) (tag name : Bytes) : Parser :=
  { p.advance (.param tag) with
    paramIsString := parseAttr tag (lit "string") = some (lit "true")
    paramName := some name
    paramValueStart := p.parsePos + tag.length
    state := .paramValue }

/-- An opening tag, or an error that consumes nothing. -/
theorem openTag_cases (p : Parser) (tag : Bytes) :
    (∃ name, INVOKE_START.isPrefixOf tag = true ∧ parseAttr tag (lit "name") = some name ∧
      p.openTag tag = p.openCall tag name) ∨
    (∃ name, PARAM_START.isPrefixOf tag = true ∧ parseAttr tag (lit "name") = some name ∧
      p.openTag tag = p.openValue tag name) ∨
    (p.openTag tag).state = .error ∧ (p.openTag tag).consumed = p.consumed ∧ (p.openTag tag).raw = p.raw ∧
      (p.openTag tag).parsePos = p.parsePos ∧ (p.openTag tag).calls = p.calls := by
  unfold Parser.openTag
  split_ifs with hinvoke hparam
  · cases hname : parseAttr tag (lit "name") with
    | none => exact Or.inr (Or.inr ⟨rfl, rfl, rfl, rfl, rfl⟩)
    | some name => exact Or.inl ⟨name, hinvoke, rfl, rfl⟩
  · cases hname : parseAttr tag (lit "name") with
    | none => exact Or.inr (Or.inr ⟨rfl, rfl, rfl, rfl, rfl⟩)
    | some name => exact Or.inr (Or.inl ⟨name, hparam, rfl, rfl⟩)
  · exact Or.inr (Or.inr ⟨rfl, rfl, rfl, rfl, rfl⟩)

/-- **All steps.** -/
theorem step_cases (h : p.step = some q) :
    (p.state = .paramValue ∧ ∃ i n, findCloseTag (p.raw.drop p.paramValueStart) (lit "parameter") = some (i, n) ∧
      q = p.endValue i n) ∨
    (p.state = .structural ∧ ∃ c t, p.rest = c :: t ∧ isBlank c = true ∧ q = p.advance (.blank c)) ∨
    (p.state = .structural ∧ ∃ n, closeTagAt p.rest (lit "tool_calls") = some n ∧
      q = p.endCall (.blockEnd (p.rest.take n)) .done) ∨
    (p.state = .structural ∧ ∃ n, closeTagAt p.rest (lit "invoke") = some n ∧
      q = p.endCall (.invokeEnd (p.rest.take n)) .structural) ∨
    (p.state = .structural ∧ ∃ k, strstr p.rest (lit ">") = some k ∧ q = p.openTag (p.rest.take (k + 1))) := by
  unfold Parser.step at h
  cases hst : p.state with
  | paramValue =>
    rw [hst] at h
    obtain ⟨r, hr, rfl⟩ := Option.map_eq_some_iff.mp h
    exact Or.inl ⟨rfl, r.1, r.2, hr, rfl⟩
  | structural =>
    rw [hst] at h
    dsimp only at h
    cases hrest : p.rest with
    | nil =>
      rw [hrest] at h
      exact absurd h nofun
    | cons c t =>
      rw [hrest] at h
      dsimp only at h
      by_cases hblank : isBlank c = true
      · rw [if_pos hblank] at h
        exact Or.inr (Or.inl ⟨rfl, c, t, rfl, hblank, (Option.some.inj h).symm⟩)
      rw [if_neg hblank] at h
      rw [← hrest]
      unfold Parser.tagStep at h
      cases hc : closeTagAt p.rest (lit "tool_calls") with
      | some n =>
        rw [hc] at h
        exact Or.inr (Or.inr (Or.inl ⟨rfl, n, rfl, (Option.some.inj h).symm⟩))
      | none =>
        rw [hc] at h
        dsimp only at h
        cases hi : closeTagAt p.rest (lit "invoke") with
        | some n =>
          rw [hi] at h
          exact Or.inr (Or.inr (Or.inr (Or.inl ⟨rfl, n, rfl, (Option.some.inj h).symm⟩)))
        | none =>
          rw [hi] at h
          dsimp only at h
          cases hk : strstr p.rest (lit ">") with
          | none =>
            rw [hk] at h
            exact absurd h nofun
          | some k =>
            rw [hk] at h
            exact Or.inr (Or.inr (Or.inr (Or.inr ⟨rfl, k, rfl, (Option.some.inj h).symm⟩)))
  | search =>
    rw [hst] at h
    exact absurd h nofun
  | done =>
    rw [hst] at h
    exact absurd h nofun
  | error =>
    rw [hst] at h
    exact absurd h nofun

/-! ### Parsing ends -/

/-- The positions of a parser. -/
def Parser.Wf (p : Parser) : Prop :=
  p.parsePos ≤ p.raw.length ∧ (p.state = .paramValue → p.paramValueStart = p.parsePos)

/-- What is left to consume, where there is anything to do. -/
def Parser.todo (p : Parser) : Nat :=
  if p.state = .structural ∨ p.state = .paramValue then p.raw.length - p.parsePos + 1 else 0

theorem closeTagAt_pos (h : closeTagAt s name = some n) : 0 < n := by
  obtain ⟨t, r, -, ⟨b₁, bar, b₂, -, -, -, rfl⟩, rfl⟩ := (closeTagAt_iff).mp h
  rw [List.length_append]
  exact Nat.lt_of_lt_of_le Nat.one_pos (Nat.le_add_left _ _)

theorem findCloseTag_spec (h : findCloseTag s (lit "parameter") = some (i, n)) : i + n ≤ s.length ∧ 0 < n := by
  rw [findCloseTag_eq (by decide)] at h
  refine ⟨Nat.le_trans (firstClose_gt (by decide) h).2 (List.takeWhile_sublist _).length_le, ?_⟩
  generalize cstr s = t at h
  induction t generalizing i with
  | nil => exact absurd h nofun
  | cons c t ih =>
    unfold firstClose at h
    cases hc : closeTagAt (c :: t) (lit "parameter") with
    | some m =>
      rw [hc] at h
      obtain ⟨-, rfl⟩ := Prod.mk.inj (Option.some.inj h)
      exact closeTagAt_pos hc
    | none =>
      rw [hc] at h
      obtain ⟨⟨i', n'⟩, hr, heq⟩ := Option.map_eq_some_iff.mp h
      obtain ⟨-, rfl⟩ := Prod.mk.inj heq
      exact ih hr

/-- **Each step** consumes something, or is the last. -/
theorem step_todo (hwf : p.Wf) (h : p.step = some q) : q.Wf ∧ q.todo < p.todo := by
  obtain ⟨hpos, hstart⟩ := hwf
  have hactive : p.state = .structural ∨ p.state = .paramValue → p.todo = p.raw.length - p.parsePos + 1 :=
    fun h => if_pos h
  have htodo : q.todo ≤ q.raw.length - q.parsePos + 1 := by
    unfold Parser.todo
    split_ifs
    · exact Nat.le_refl _
    · exact Nat.zero_le _
  have hrestlen : p.rest.length = p.raw.length - p.parsePos := List.length_drop
  -- a tag that is consumed
  have htag : ∀ m, 0 < m → m ≤ p.rest.length → p.parsePos + (p.rest.take m).length ≤ p.raw.length ∧
      p.raw.length - (p.parsePos + (p.rest.take m).length) + 1 < p.raw.length - p.parsePos + 1 := by
    intro m hm hle
    rw [List.length_take, Nat.min_eq_left hle]
    omega
  obtain ⟨hst, i, n, hfind, rfl⟩ | ⟨hst, c, t, hrest, -, rfl⟩ | ⟨hst, n, hclose, rfl⟩ | ⟨hst, n, hclose, rfl⟩ |
    ⟨hst, k, hgt, rfl⟩ := step_cases h
  · have hpos' := hstart hst
    obtain ⟨hfit, hn⟩ := findCloseTag_spec hfind
    rw [List.length_drop] at hfit
    rw [hactive (Or.inr hst)]
    refine ⟨⟨?_, nofun⟩, Nat.lt_of_le_of_lt htodo ?_⟩
    · show p.paramValueStart + i + n ≤ p.raw.length
      omega
    · show p.raw.length - (p.paramValueStart + i + n) + 1 < _
      omega
  · rw [hrest, List.length_cons] at hrestlen
    rw [hactive (Or.inl hst)]
    refine ⟨⟨?_, fun hp => absurd (hst.symm.trans hp) nofun⟩, Nat.lt_of_le_of_lt htodo ?_⟩
    · show p.parsePos + 1 ≤ p.raw.length
      omega
    · show p.raw.length - (p.parsePos + 1) + 1 < _
      omega
  · obtain ⟨hle, hlt⟩ := htag n (closeTagAt_pos hclose) (closeTagAt_le hclose)
    rw [hactive (Or.inl hst)]
    exact ⟨⟨hle, nofun⟩, Nat.lt_of_le_of_lt htodo hlt⟩
  · obtain ⟨hle, hlt⟩ := htag n (closeTagAt_pos hclose) (closeTagAt_le hclose)
    rw [hactive (Or.inl hst)]
    exact ⟨⟨hle, nofun⟩, Nat.lt_of_le_of_lt htodo hlt⟩
  · obtain ⟨hle, hlt⟩ := htag (k + 1) (Nat.succ_pos k) (strstr_le hgt)
    rw [hactive (Or.inl hst)]
    obtain ⟨name, -, -, heq⟩ | ⟨name, -, -, heq⟩ | ⟨herror, -, hraw, hposq, -⟩ :=
      openTag_cases p (p.rest.take (k + 1))
    · rw [heq] at htodo ⊢
      exact ⟨⟨hle, fun hp => absurd (hst.symm.trans hp) nofun⟩, Nat.lt_of_le_of_lt htodo hlt⟩
    · rw [heq] at htodo ⊢
      exact ⟨⟨hle, fun _ => rfl⟩, Nat.lt_of_le_of_lt htodo hlt⟩
    · refine ⟨⟨by rw [hraw, hposq]; exact hpos, fun hp => absurd (herror.symm.trans hp) nofun⟩, ?_⟩
      unfold Parser.todo
      rw [herror, if_neg (by decide)]
      exact Nat.succ_pos _

/-- Blanks are skipped one by one. -/
theorem runs_blanks {bs r : Bytes} (hst : p.state = .structural) (hrest : p.rest = bs ++ r)
    (hbs : ∀ c ∈ bs, isBlank c = true) :
    Runs Parser.step p { p with parsePos := p.parsePos + bs.length, consumed := p.consumed ++ bs.map Piece.blank } := by
  induction bs generalizing p with
  | nil =>
    have heq : p = { p with parsePos := p.parsePos + 0, consumed := p.consumed ++ [] } := by
      rw [Nat.add_zero, List.append_nil]
    exact heq ▸ Runs.refl p
  | cons c bs ih =>
    have hstep : p.step = some (p.advance (.blank c)) := by
      unfold Parser.step
      rw [hst]
      dsimp only
      rw [hrest, List.cons_append]
      exact if_pos (hbs c List.mem_cons_self)
    have hrest' : (p.advance (.blank c)).rest = bs ++ r := by
      show p.raw.drop (p.parsePos + 1) = _
      rw [← List.drop_drop]
      show p.rest.drop 1 = _
      rw [hrest]
      rfl
    have hruns := @ih (p.advance (.blank c)) hst hrest' fun d hd => hbs d (List.mem_cons_of_mem c hd)
    have heq : { p.advance (.blank c) with
          parsePos := (p.advance (.blank c)).parsePos + bs.length
          consumed := (p.advance (.blank c)).consumed ++ bs.map Piece.blank } =
        { p with parsePos := p.parsePos + (c :: bs).length, consumed := p.consumed ++ (c :: bs).map Piece.blank } := by
      show Parser.mk _ _ _ _ _ _ _ _ _ _ _ = Parser.mk _ _ _ _ _ _ _ _ _ _ _
      congr 1
      · show p.parsePos + 1 + bs.length = p.parsePos + (bs.length + 1)
        omega
      · show p.consumed ++ [.blank c] ++ bs.map Piece.blank = _
        rw [List.append_assoc]
        rfl
    exact heq ▸ Runs.head hstep hruns

theorem drop_takeWhile (f : UInt8 → Bool) (s : Bytes) : s.drop (s.takeWhile f).length = s.dropWhile f := by
  induction s with
  | nil => rfl
  | cons c s ih =>
    rw [List.takeWhile_cons, List.dropWhile_cons]
    split_ifs
    · exact ih
    · rfl

theorem skipBlanks_rest (p : Parser) : p.skipBlanks.rest = p.rest.dropWhile isBlank := by
  show p.raw.drop (p.parsePos + (p.rest.takeWhile isBlank).length) = _
  rw [← List.drop_drop]
  exact drop_takeWhile isBlank p.rest

theorem runs_skipBlanks (hst : p.state = .structural) : Runs Parser.step p p.skipBlanks :=
  runs_blanks hst List.takeWhile_append_dropWhile.symm (List.all_eq_true.mp List.all_takeWhile)

/-- **A round** is some steps, and stops where no step is left. -/
theorem round_spec (p : Parser) :
    ∃ p', Runs Parser.step p p' ∧
      (p.round = (p', false) ∧ p'.step = none ∨ ∃ q, p'.step = some q ∧ p.round = (q, true)) := by
  unfold Parser.round
  cases hst : p.state with
  | paramValue =>
    refine ⟨p, Runs.refl p, ?_⟩
    have hstep : p.step = (findCloseTag (p.raw.drop p.paramValueStart) (lit "parameter")).map fun r =>
        p.endValue r.1 r.2 := by
      unfold Parser.step
      rw [hst]
    rw [hstep]
    dsimp only
    cases findCloseTag (p.raw.drop p.paramValueStart) (lit "parameter") with
    | none => exact Or.inl ⟨rfl, rfl⟩
    | some r => exact Or.inr ⟨_, rfl, rfl⟩
  | structural =>
    refine ⟨p.skipBlanks, runs_skipBlanks hst, ?_⟩
    have hst' : p.skipBlanks.state = .structural := hst
    dsimp only
    by_cases hend : p.skipBlanks.parsePos ≥ p.skipBlanks.raw.length
    · have hnil : p.skipBlanks.rest = [] := List.drop_eq_nil_of_le hend
      rw [if_pos hend]
      refine Or.inl ⟨rfl, ?_⟩
      unfold Parser.step
      rw [hst']
      dsimp only
      rw [hnil]
    rw [if_neg hend]
    have hstep : p.skipBlanks.step = p.skipBlanks.tagStep := by
      have hhead := List.head?_dropWhile_not isBlank p.rest
      rw [← skipBlanks_rest] at hhead
      unfold Parser.step
      rw [hst']
      dsimp only
      cases hrest : p.skipBlanks.rest with
      | nil => exact absurd (List.drop_eq_nil_iff.mp hrest) hend
      | cons c t =>
        rw [hrest] at hhead
        have hc : isBlank c = false := hhead
        exact if_neg (by rw [hc]; exact nofun)
    rw [hstep]
    cases p.skipBlanks.tagStep with
    | none => exact Or.inl ⟨rfl, rfl⟩
    | some q => exact Or.inr ⟨q, rfl, rfl⟩
  | search =>
    refine ⟨p, Runs.refl p, Or.inl ⟨rfl, ?_⟩⟩
    unfold Parser.step
    rw [hst]
  | done =>
    refine ⟨p, Runs.refl p, Or.inl ⟨rfl, ?_⟩⟩
    unfold Parser.step
    rw [hst]
  | error =>
    refine ⟨p, Runs.refl p, Or.inl ⟨rfl, ?_⟩⟩
    unfold Parser.step
    rw [hst]

theorem parseLoop_runs (fuel : Nat) (p : Parser) : Runs Parser.step p (parseLoop fuel p) := by
  induction fuel generalizing p with
  | zero => exact Runs.refl p
  | succ fuel ih =>
    obtain ⟨p', hruns, ⟨hround, -⟩ | ⟨q, hstep, hround⟩⟩ := round_spec p
    · unfold parseLoop
      rw [hround]
      exact hruns
    · unfold parseLoop
      rw [hround]
      exact hruns.trans (Runs.head hstep (ih q))

/-- What a run leaves to do. -/
theorem runs_todo (hwf : p.Wf) (h : Runs Parser.step p q) : q.Wf ∧ q.todo ≤ p.todo := by
  refine @Runs.invariant _ Parser.step p q (fun q => q.Wf ∧ q.todo ≤ p.todo) (fun s t hstep hs => ?_) h
    ⟨hwf, Nat.le_refl _⟩
  obtain ⟨hwf', hlt⟩ := step_todo hs.1 hstep
  exact ⟨hwf', Nat.le_trans (Nat.le_of_lt hlt) hs.2⟩

theorem step_none_of_todo (h : p.todo = 0) : p.step = none := by
  unfold Parser.todo at h
  split_ifs at h with hst
  unfold Parser.step
  cases hp : p.state with
  | paramValue => exact absurd (Or.inr hp) hst
  | structural => exact absurd (Or.inl hp) hst
  | search => rfl
  | done => rfl
  | error => rfl

theorem parseLoop_stops {fuel : Nat} (hwf : p.Wf) (hfuel : p.todo ≤ fuel) : (parseLoop fuel p).step = none := by
  induction fuel generalizing p with
  | zero => exact step_none_of_todo (Nat.le_zero.mp hfuel)
  | succ fuel ih =>
    obtain ⟨p', hruns, ⟨hround, hnone⟩ | ⟨q, hstep, hround⟩⟩ := round_spec p
    · unfold parseLoop
      rw [hround]
      exact hnone
    · obtain ⟨hwf', hle⟩ := runs_todo hwf hruns
      obtain ⟨hwfq, hlt⟩ := step_todo hwf' hstep
      unfold parseLoop
      rw [hround]
      exact ih hwfq (show q.todo ≤ fuel by omega)

/-- **Parsing** is stepping … -/
theorem parse_runs (p : Parser) : Runs Parser.step p (agentDsmlParse p) := parseLoop_runs _ p

/-- … as long as it goes. -/
theorem parse_stops (hwf : p.Wf) : (agentDsmlParse p).step = none := by
  refine parseLoop_stops hwf ?_
  unfold Parser.todo
  split_ifs
  · exact Nat.le_refl _
  · exact Nat.zero_le _

/-! ### Feeding -/

theorem step_not_search (h : p.step = some q) : q.state ≠ .search := by
  obtain ⟨-, i, n, -, rfl⟩ | ⟨hst, c, t, -, -, rfl⟩ | ⟨-, n, -, rfl⟩ | ⟨-, n, -, rfl⟩ | ⟨hst, k, -, rfl⟩ := step_cases h
  · exact nofun
  · exact fun hs => absurd (hst.symm.trans hs) nofun
  · exact nofun
  · exact nofun
  · obtain ⟨name, -, -, heq⟩ | ⟨name, -, -, heq⟩ | ⟨herror, -⟩ := openTag_cases p (p.rest.take (k + 1))
    · rw [heq]
      exact fun hs => absurd (hst.symm.trans hs) nofun
    · rw [heq]
      exact nofun
    · rw [herror]
      exact nofun

theorem runs_not_search (hst : p.state ≠ .search) (h : Runs Parser.step p q) : q.state ≠ .search :=
  @Runs.invariant _ Parser.step p q (fun q => q.state ≠ .search) (fun _ _ hstep _ => step_not_search hstep) h hst

theorem feedByte_of_not_search (hst : p.state ≠ .search) (c : UInt8) : feedByte p c = agentDsmlParse (p.push c) :=
  if_neg hst

theorem feedByte_not_search (hst : p.state ≠ .search) (c : UInt8) : (feedByte p c).state ≠ .search := by
  have hpush : (p.push c).state ≠ .search := hst
  rw [feedByte_of_not_search hst]
  exact runs_not_search hpush (parse_runs (p.push c))

theorem foldl_feedByte (hst : p.state ≠ .search) (s : Bytes) :
    s.foldl feedByte p = s.foldl (fun p c => agentDsmlParse (p.push c)) p := by
  induction s generalizing p with
  | nil => rfl
  | cons c s ih =>
    rw [List.foldl_cons, List.foldl_cons, ih (feedByte_not_search hst c), feedByte_of_not_search hst]

theorem foldl_push (p : Parser) (s : Bytes) : s.foldl Parser.push p = { p with raw := p.raw ++ s } := by
  induction s generalizing p with
  | nil =>
    show p = { p with raw := p.raw ++ [] }
    rw [List.append_nil]
  | cons c s ih =>
    rw [List.foldl_cons, ih]
    show ({ p with raw := p.raw ++ [c] ++ s } : Parser) = _
    rw [List.append_assoc]
    rfl

/-- **A text fed byte by byte** is parsed as if it had been there at once … -/
theorem feed_runs (hst : p.state ≠ .search) (s : Bytes) :
    Runs Parser.step { p with raw := p.raw ++ s } (s.foldl feedByte p) := by
  rw [foldl_feedByte hst, ← foldl_push]
  exact Runs.feed step_push parse_runs s p

theorem push_wf (hwf : p.Wf) (c : UInt8) : (p.push c).Wf := by
  refine ⟨?_, hwf.2⟩
  show p.parsePos ≤ (p.raw ++ [c]).length
  rw [List.length_append]
  exact Nat.le_trans hwf.1 (Nat.le_add_right _ _)

theorem feedByte_wf (hst : p.state ≠ .search) (hwf : p.Wf) (c : UInt8) : (feedByte p c).Wf := by
  rw [feedByte_of_not_search hst]
  exact (runs_todo (push_wf hwf c) (parse_runs _)).1

/-- … as far as it goes. -/
theorem feed_stops (hst : p.state ≠ .search) (hwf : p.Wf) (hstop : p.step = none) (s : Bytes) :
    (s.foldl feedByte p).step = none := by
  induction s generalizing p with
  | nil => exact hstop
  | cons c s ih =>
    refine ih (feedByte_not_search hst c) (feedByte_wf hst hwf c) ?_
    rw [feedByte_of_not_search hst]
    exact parse_stops (push_wf hwf c)

end

end DS4.Agent.Dsml
