import DS4.Agent.LineGuard

namespace DS4.Agent

/-!
# Agent — what the edits do to a file

A line edit puts its text in the place of whole lines, an old/new edit in the place of the only occurrence of
a text.  Both write the whole file anew.

* `LineEditExact` — a line edit changes the lines of its range and no others.
* `Merges` — a terminator that the edit would put together from two sides.
* `OldNewExact`, `LineErrorsClean` — an old/new edit is exact, and errors leave the files as they are.
-/

open DS4.Tokenizer DS4.Lib

/-! ### Line edits -/

/-- A line edit of `data` gives `out`: the lines are those before the range, those of the new text and those
    behind the range, the bytes outside the range are the same, and the number of lines put in and the
    reported shift are right. -/
structure LineEditExact (data out newText : Bytes) (a b : Nat) : Prop where
  lines : lineContents out =
    (lineContents data).take (a - 1) ++ lineContents newText ++ (lineContents data).drop b
  bytes : ∃ lo hi hadNewline, rangeBytes data a b = some (lo, hi, hadNewline) ∧
    data.take lo <+: out ∧ data.drop hi <:+ out ∧
    agentEditReplacementLineCount newText (addsNewline newText hadNewline) = (lineContents newText).length ∧
    ((lineContents out).length : Int) - (lineContents data).length =
      lineDelta a b (agentEditReplacementLineCount newText (addsNewline newText hadNewline))

/-- The text before the range ends with a carriage return, and what comes to stand behind it begins with a
    line feed. -/
def Merges (data newText : Bytes) (a b : Nat) : Prop :=
  ∃ lo hi hadNewline, rangeBytes data a b = some (lo, hi, hadNewline) ∧
    (data.take lo).getLast? = some 0x0d ∧ (newText ++ data.drop hi).head? = some 0x0a

/-- The bytes of a range, between those before it and those behind it. -/
structure RangeSplit (data : Bytes) (a b lo hi : Nat) (hadNewline : Bool) (pre old post : Bytes) : Prop where
  data_eq    : data = pre ++ old ++ post
  pre_len    : pre.length = lo
  old_len    : pre.length + old.length = hi
  old_ne     : old ≠ []
  pre_ends   : pre = [] ∨ EndsLine pre (old ++ post)
  old_ends   : post = [] ∨ EndsLine old post
  post_nil   : hadNewline = false → post = []
  pre_count  : countLines pre + 1 = a
  both_count : countLines (pre ++ old) = b

theorem rangeBytes_split {data : Bytes} {a b lo hi : Nat} {hadNewline : Bool} (ha : 0 < a) (hab : a ≤ b)
    (h : rangeBytes data a b = some (lo, hi, hadNewline)) :
    ∃ pre old post, RangeSplit data a b lo hi hadNewline pre old post := by
  obtain ⟨hcount, hle, hhi, hlen⟩ := rangeBytes_eq ha hab h
  obtain ⟨s, hs, h⟩ := Option.bind_eq_some_iff.mp h
  obtain ⟨e, he, h⟩ := Option.map_eq_some_iff.mp h
  simp only [Prod.mk.injEq] at h
  obtain ⟨rfl, rfl, rfl⟩ := h
  have hs : (lines data)[a - 1]? = some s := hs
  have he : (lines data)[b - 1]? = some e := he
  have hbs := bounds_linesFrom (Nat.le_refl 0) (List.mem_of_getElem? hs)
  have hbe := bounds_linesFrom (Nat.le_refl 0) (List.mem_of_getElem? he)
  have hse : s.start < e.stop := start_lt_stop hs he (by omega)
  have hdrop : (data.drop s.start).drop (e.stop - s.start) = data.drop e.stop := by
    rw [List.drop_drop, Nat.add_sub_cancel' hle]
  have hlen' : ((data.drop s.start).take (e.stop - s.start)).length = e.stop - s.start := by
    rw [List.length_take, List.length_drop]
    omega
  have heq : data = data.take s.start ++ ((data.drop s.start).take (e.stop - s.start) ++ data.drop e.stop) := by
    rw [← hdrop, List.take_append_drop, List.take_append_drop]
  have hboth : data.take s.start ++ (data.drop s.start).take (e.stop - s.start) = data.take e.stop := by
    rw [← List.take_add, Nat.add_sub_cancel' hle]
  have hne : (data.drop s.start).take (e.stop - s.start) ≠ [] := by
    intro hnil
    rw [hnil, List.length_nil] at hlen'
    omega
  have hpos : s.start = 0 + (data.take s.start).length := by omega
  have hpos' : e.stop = 0 + (data.take e.stop).length := by
    rw [List.length_take]
    omega
  -- the line behind the range
  have hnext : (data.drop e.stop = [] ∧ (lines data).length = b) ∨
      ∃ sp, (lines data)[b]? = some sp ∧ sp.start = e.stop := by
    cases hsp : (lines data)[b - 1 + 1]? with
    | none =>
      left
      have hstop := stop_last (Nat.le_refl 0) he hsp
      have h1 := List.getElem?_eq_none_iff.mp hsp
      have h2 := (List.getElem?_eq_some_iff.mp he).1
      exact ⟨List.drop_eq_nil_of_le (by omega), by omega⟩
    | some sp =>
      right
      have hb : b - 1 + 1 = b := by omega
      exact ⟨sp, hb ▸ hsp, (stop_eq_start (Nat.le_refl 0) he hsp).symm⟩
  refine ⟨data.take s.start, (data.drop s.start).take (e.stop - s.start), data.drop e.stop, ?_⟩
  constructor
  · rw [List.append_assoc]
    exact heq
  · exact hlen
  · rw [hlen, hlen', Nat.add_sub_cancel' hle]
  · exact hne
  · by_cases hpre : data.take s.start = []
    · exact Or.inl hpre
    · right
      have hmem : s ∈ linesFrom 0 0 (data.take s.start ++
          ((data.drop s.start).take (e.stop - s.start) ++ data.drop e.stop)) :=
        heq ▸ List.mem_of_getElem? hs
      exact endsLine_of_start (Nat.le_refl 0) hpre hmem hpos
  · rcases hnext with ⟨hnil, -⟩ | ⟨sp, hsp, hstart⟩
    · exact Or.inl hnil
    · right
      have hmem : sp ∈ linesFrom 0 0 (data.take e.stop ++ data.drop e.stop) := by
        rw [List.take_append_drop]
        exact List.mem_of_getElem? hsp
      have hends := endsLine_of_start (Nat.le_refl 0) (by rw [← hboth]; simp [hne]) hmem
        (hstart.trans hpos')
      rw [← hboth] at hends
      simpa [EndsLine, List.getLast?_append_of_ne_nil _ hne] using hends
  · intro hnl
    have hle : e.stop ≤ e.contentEnd := Nat.le_of_not_lt (of_decide_eq_false hnl)
    have hstop := stop_of_unterminated (List.mem_of_getElem? he) hle
    rw [Nat.zero_add] at hstop
    exact List.drop_eq_nil_of_le (Nat.le_of_eq hstop.symm)
  · exact hcount
  · rw [hboth]
    rcases hnext with ⟨hnil, hlast⟩ | ⟨sp, hsp, hstart⟩
    · have hall : data.take e.stop = data := by
        rw [List.take_of_length_le]
        exact List.drop_eq_nil_iff.mp hnil
      rw [hall, ← length_lines, hlast]
    · rw [← hstart, countLines_take hsp]

theorem lineContents_append {a b : Bytes} (h : a = [] ∨ EndsLine a b) :
    lineContents (a ++ b) = lineContents a ++ lineContents b := by
  rw [lineContents_eq, lineContents_eq, lineContents_eq]
  rcases h with rfl | h
  · rfl
  · exact contentsFrom_append h []

theorem lineContents_insertedText (newText : Bytes) (hadNewline : Bool) :
    lineContents (insertedText newText hadNewline) = lineContents newText := by
  unfold insertedText
  by_cases hadd : addsNewline newText hadNewline = true
  · obtain ⟨-, hne, hlast⟩ := of_decide_eq_true hadd
    rw [if_pos hadd, lineContents_eq, lineContents_eq, contentsFrom_concat_lf [] hne hlast]
  · rw [if_neg hadd]

/-- Before a range that has a terminator, the text put in ends with one that is whole. -/
theorem insertedText_ends {newText post : Bytes} {hadNewline : Bool} (hpost : hadNewline = false → post = []) :
    insertedText newText hadNewline = [] ∨ post = [] ∨ EndsLine (insertedText newText hadNewline) post := by
  unfold insertedText
  cases hadNewline with
  | false => exact Or.inr (Or.inl (hpost rfl))
  | true =>
    by_cases hne : newText = []
    · subst hne
      exact Or.inl rfl
    · by_cases hlast : newText.getLast? = some 0x0a
      · rw [if_neg (by simp [addsNewline, hlast])]
        exact Or.inr (Or.inr ⟨⟨0x0a, hlast, Or.inl rfl⟩, fun h => absurd (hlast.symm.trans h.1) (by decide)⟩)
      · rw [if_pos (by simp [addsNewline, hne, hlast])]
        have hend : (newText ++ [0x0a]).getLast? = some 0x0a := by simp
        exact Or.inr (Or.inr ⟨⟨0x0a, hend, Or.inl rfl⟩, fun h => absurd (hend.symm.trans h.1) (by decide)⟩)

theorem insertedText_head (newText post : Bytes) (hadNewline : Bool) :
    (insertedText newText hadNewline ++ post).head? = (newText ++ post).head? := by
  unfold insertedText
  by_cases hadd : addsNewline newText hadNewline = true
  · obtain ⟨-, hne, -⟩ := of_decide_eq_true hadd
    obtain ⟨c, t, rfl⟩ := List.exists_cons_of_ne_nil hne
    rw [if_pos hadd]
    rfl
  · rw [if_neg hadd]

section
variable {data newText pre old post : Bytes} {a b lo hi : Nat} {hadNewline : Bool}

theorem RangeSplit.contents (h : RangeSplit data a b lo hi hadNewline pre old post) :
    lineContents data = lineContents pre ++ lineContents old ++ lineContents post ∧
      (lineContents pre).length + 1 = a ∧ (lineContents pre ++ lineContents old).length = b := by
  have hpo : lineContents (pre ++ old) = lineContents pre ++ lineContents old := by
    apply lineContents_append
    rcases h.pre_ends with hnil | ⟨hc, hcr⟩
    · exact Or.inl hnil
    · right
      refine ⟨hc, fun hh => hcr ⟨hh.1, ?_⟩⟩
      rw [List.head?_append, hh.2]
      rfl
  refine ⟨?_, ?_, ?_⟩
  · rw [h.data_eq, ← hpo]
    rcases h.old_ends with rfl | hends
    · rw [List.append_nil]
      exact (List.append_nil _).symm
    · apply lineContents_append
      right
      simpa [EndsLine, List.getLast?_append_of_ne_nil _ h.old_ne] using hends
  · rw [length_lineContents]
    exact h.pre_count
  · rw [← hpo, length_lineContents]
    exact h.both_count

/-- The new file of a line edit. -/
theorem RangeSplit.spliced (h : RangeSplit data a b lo hi hadNewline pre old post) (text : Bytes) :
    spliced data lo (hi - lo) text = pre ++ text ++ post := by
  have hlen : hi - lo = old.length := by
    have := h.pre_len
    have := h.old_len
    omega
  rw [hlen, h.data_eq, ← h.pre_len, spliced_eq]

theorem RangeSplit.take (h : RangeSplit data a b lo hi hadNewline pre old post) : data.take lo = pre := by
  rw [h.data_eq, ← h.pre_len, List.append_assoc, List.take_left]

theorem RangeSplit.drop (h : RangeSplit data a b lo hi hadNewline pre old post) : data.drop hi = post := by
  have hlen : hi = (pre ++ old).length := by rw [List.length_append, h.old_len]
  rw [h.data_eq, hlen, List.drop_left]

/-- Lines of the new text and of those behind the range. -/
theorem RangeSplit.contents_inserted (h : RangeSplit data a b lo hi hadNewline pre old post) (newText : Bytes) :
    lineContents (insertedText newText hadNewline ++ post) = lineContents newText ++ lineContents post := by
  have hins := lineContents_insertedText newText hadNewline
  rcases @insertedText_ends newText post hadNewline h.post_nil with hnil | rfl | hends
  · rw [← hins, hnil]
    rfl
  · rw [← hins, List.append_nil]
    exact (List.append_nil _).symm
  · rw [lineContents_append (Or.inr hends), hins]

/-- **Line edits.**  A line edit is exact but where a terminator is put together from the text before the
    range and what comes behind it. -/
theorem lineEditExact_iff (ha : 0 < a) (hab : a ≤ b) (hrange : rangeBytes data a b = some (lo, hi, hadNewline)) :
    LineEditExact data (spliced data lo (hi - lo) (insertedText newText hadNewline)) newText a b ↔
      ¬ Merges data newText a b := by
  obtain ⟨pre, old, post, h⟩ := rangeBytes_split ha hab hrange
  obtain ⟨hdata, hpre, hboth⟩ := h.contents
  have hrest := h.contents_inserted newText
  have hhead := insertedText_head newText post hadNewline
  have hcount := countLines_insertedText newText hadNewline
  rw [← length_lineContents, lineContents_insertedText] at hcount
  have htake : (lineContents data).take (a - 1) = lineContents pre := by
    have hlen : a - 1 = (lineContents pre).length := by omega
    rw [hdata, hlen, List.append_assoc, List.take_left]
  have hdrop : (lineContents data).drop b = lineContents post := by rw [hdata, ← hboth, List.drop_left]
  have hlendata := congrArg List.length hdata
  rw [List.length_append, List.length_append] at hlendata
  rw [List.length_append] at hboth
  rw [h.spliced]
  constructor
  · -- two lines that become one are missing
    rintro hexact ⟨lo', hi', nl', hrange', hlast, hfirst⟩
    obtain ⟨rfl, rfl, rfl⟩ : lo = lo' ∧ hi = hi' ∧ hadNewline = nl' := by
      simpa using (hrange.symm).trans hrange'
    rw [h.take] at hlast
    rw [h.drop, ← hhead] at hfirst
    have hmerge : countLines (pre ++ (insertedText newText hadNewline ++ post)) + 1 = _ :=
      countFrom_append_merge hlast hfirst false
    have hlines := congrArg List.length hexact.lines
    have hcrest := congrArg List.length hrest
    rw [htake, hdrop] at hlines
    simp only [List.length_append, length_lineContents, List.append_assoc] at hlines hcrest
    have hc : countFrom false (insertedText newText hadNewline ++ post) =
        countLines (insertedText newText hadNewline ++ post) := rfl
    have hc' : countFrom false pre = countLines pre := rfl
    omega
  · intro hmerges
    have hlines : lineContents (pre ++ insertedText newText hadNewline ++ post) =
        lineContents pre ++ (lineContents newText ++ lineContents post) := by
      rw [List.append_assoc, ← hrest]
      apply lineContents_append
      rcases h.pre_ends with hnil | ⟨hc, -⟩
      · exact Or.inl hnil
      · refine Or.inr ⟨hc, fun hh => hmerges ⟨lo, hi, hadNewline, hrange, ?_, ?_⟩⟩
        · rw [h.take]
          exact hh.1
        · rw [h.drop, ← hhead]
          exact hh.2
    refine ⟨?_, lo, hi, hadNewline, hrange, ?_, ?_, hcount.symm, ?_⟩
    · rw [htake, hdrop, hlines, List.append_assoc]
    · rw [h.take, List.append_assoc]
      exact List.prefix_append ..
    · rw [h.drop]
      exact List.suffix_append ..
    · rw [hlines, hlendata, ← hcount]
      simp only [List.length_append, lineDelta]
      omega

end

/-! ### Results -/

section
variable {io : Io} {st : ToolState} {path data : Bytes} {o : Out}

theorem say_bytes (s : Bytes) : (say s).buf.bytes = (cstr s).take AGENT_BUF_MAX := by
  show (({} : AgentBuf).append (cstr s)).bytes = _
  unfold AgentBuf.append
  by_cases hnil : cstr s = []
  · rw [if_pos (Or.inl hnil), hnil, List.take_nil]
    rfl
  · rw [if_neg (by simp [hnil])]
    dsimp only
    have h0 : ({} : AgentBuf).bytes = [] := rfl
    rw [h0, List.length_nil, Nat.zero_add, Nat.sub_zero]
    by_cases hlong : AGENT_BUF_MAX < (cstr s).length
    · rw [decide_eq_true hlong, if_pos rfl]
      split_ifs with ht
      · rw [ht]
        rfl
      · rfl
    · simp only [decide_eq_false hlong, Bool.false_eq_true, if_false, hnil]
      rw [List.take_of_length_le (Nat.le_of_not_lt hlong)]
      rfl

theorem say_starts {x s : Bytes} (h : x <+: s) (h0 : 0 ∉ x) (hlen : x.length ≤ AGENT_BUF_MAX) :
    x <+: (say s).buf.bytes := by
  rw [say_bytes]
  exact List.prefix_take_iff.mpr ⟨prefix_cstr h h0, hlen⟩

theorem bytes_prefix_puts (o : Out) (s : Bytes) : o.buf.bytes <+: (o.puts s).buf.bytes :=
  AgentBuf.bytes_prefix_append _ _

theorem bytes_prefix_line (o : Out) (indent path : Bytes) (n : Nat) (content : Bytes) :
    o.buf.bytes <+: (o.line indent path n content).buf.bytes :=
  (AgentBuf.bytes_prefix_append _ _).trans
    ((AgentBuf.bytes_prefix_append _ _).trans (AgentBuf.bytes_prefix_append _ _))

theorem bytes_prefix_appendLines (o : Out) (a b : Nat) :
    o.buf.bytes <+: (appendLines o path data a b).buf.bytes := by
  unfold appendLines
  generalize List.range' a (b + 1 - a) = ns
  induction ns generalizing o with
  | nil          => exact List.prefix_rfl
  | cons n ns ih => exact (bytes_prefix_line o [] path n _).trans (ih _)

theorem bytes_prefix_context (views : Views) (o : Out) (a b : Nat) :
    o.buf.bytes <+: (agentEditResultAppendContext views o path data a b).1.buf.bytes := by
  unfold agentEditResultAppendContext
  dsimp only
  split_ifs
  · exact List.prefix_rfl
  · unfold contextOut
    dsimp only
    split_ifs
    · exact (bytes_prefix_puts o _).trans (bytes_prefix_appendLines _ _ _)
    · exact (bytes_prefix_puts o _).trans ((bytes_prefix_appendLines _ _ _).trans
        ((bytes_prefix_puts _ _).trans (bytes_prefix_appendLines _ _ _)))

/-- What an edit says first. -/
theorem edited_starts (size : Nat) (hsize : 7 ≤ size - 1) (rest : Bytes) :
    lit "Edited " <+: (say (snprintf size (lit "Edited " ++ rest))).buf.bytes := by
  apply say_starts _ (by decide) (by decide)
  exact List.prefix_take_iff.mpr ⟨List.prefix_append .., hsize⟩

theorem agentEditLineResult_edited (views : Views) (a b r : Nat) :
    lit "Edited " <+: (agentEditLineResult views path a b r data).1.text := by
  apply prefix_cstr _ (by decide)
  unfold agentEditLineResult
  refine List.IsPrefix.trans ?_ (bytes_prefix_context _ _ _ _)
  have h := edited_starts (PATH_MAX + 160) (by decide) (path ++ lit " lines " ++ natText a ++ lit "-" ++
    natText b ++ lit "\n")
  simp only [List.append_assoc] at h ⊢
  split_ifs
  · exact h.trans (bytes_prefix_puts _ _)
  · exact h

theorem agentEditOldNewResult_edited (views : Views) (s e : Nat) (d : Int) :
    lit "Edited " <+: (agentEditOldNewResult views path s e d data).1.text := by
  apply prefix_cstr _ (by decide)
  have h := edited_starts (PATH_MAX + 180) (by decide) (path ++ lit " using old/new replacement\n")
  unfold agentEditOldNewResult
  simp only [List.append_assoc] at h ⊢
  by_cases hrange : 0 < s ∧ s ≤ e
  · rw [if_pos hrange]
    refine List.IsPrefix.trans ?_ (bytes_prefix_context _ _ _ _)
    split_ifs
    · exact h.trans ((bytes_prefix_puts _ _).trans (bytes_prefix_puts _ _))
    · exact h.trans (bytes_prefix_puts _ _)
  · rw [if_neg hrange]
    exact h

end

/-! ### The calls -/

theorem toolError_not_succeeds {r : CallOut} (err : Bytes) (h : r.out = toolError err) : ¬ Succeeds r := by
  intro hs
  unfold Succeeds at hs
  rw [h] at hs
  obtain ⟨t, ht⟩ := toolError_starts err
  obtain ⟨t', ht'⟩ := hs
  have hhead : some (0x54 : UInt8) = some 0x45 := congrArg List.head? (ht.trans ht'.symm)
  exact absurd hhead (by decide)

section
variable {io : Io} {st : ToolState} {path : Bytes} {a b : Nat}

/-- A line edit of `data` comes to its write, of `out`. -/
def LineWrites (io : Io) (st : ToolState) (path : Bytes) (a b : Nat) (newText data out : Bytes) : Prop :=
  0 < a ∧ a ≤ b ∧ agentReadFileBytes io.files path = .ok data ∧
    verifySeenRange st.views path data a b = none ∧
    ∃ lo hi hadNewline, rangeBytes data a b = some (lo, hi, hadNewline) ∧
      out = spliced data lo (hi - lo) (insertedText newText hadNewline)

/-- A line edit is rejected, or comes to its write. -/
theorem agentToolEditLineRange_cases (io : Io) (st : ToolState) (path : Bytes) (a b : Nat)
    (newText : Option Bytes) :
    (Rejected io (agentToolEditLineRange io st path a b newText) ∧
      ∀ data out, ¬ LineWrites io st path a b (newText.getD []) data out) ∨
    ∃ data out, LineWrites io st path a b (newText.getD []) data out ∧
      (agentToolEditLineRange io st path a b newText).files = written io path out ∧
      (Succeeds (agentToolEditLineRange io st path a b newText) ↔ agentWriteFileBytes io path = none) := by
  unfold agentToolEditLineRange
  dsimp only
  by_cases hbad : a = 0 ∨ b = 0 ∨ b < a
  · rw [if_pos hbad]
    refine Or.inl ⟨⟨badRange_starts, rfl⟩, fun data out h => ?_⟩
    have := h.1
    have := h.2.1
    omega
  · rw [if_neg hbad]
    cases hdata : agentReadFileBytes io.files path with
    | error err =>
      refine Or.inl ⟨⟨toolError_starts err, rfl⟩, fun data out h => ?_⟩
      exact absurd (hdata.symm.trans h.2.2.1) (by simp)
    | ok data =>
      dsimp only
      cases hrange : rangeBytes data a b with
      | none =>
        refine Or.inl ⟨⟨outside_starts, rfl⟩, fun data' out h => ?_⟩
        obtain rfl : data = data' := by simpa using (hdata.symm).trans h.2.2.1
        obtain ⟨lo, hi, nl, hr, -⟩ := h.2.2.2.2
        exact absurd (hrange.symm.trans hr) (by simp)
      | some r =>
        obtain ⟨lo, hi, hadNewline⟩ := r
        dsimp only
        cases hverify : verifySeenRange st.views path data a b with
        | some err =>
          refine Or.inl ⟨⟨toolError_starts err, rfl⟩, fun data' out h => ?_⟩
          obtain rfl : data = data' := by simpa using (hdata.symm).trans h.2.2.1
          exact absurd (hverify.symm.trans h.2.2.2.1) (by simp)
        | none =>
          right
          refine ⟨data, _, ⟨by omega, by omega, hdata, hverify, lo, hi, hadNewline, hrange, rfl⟩, ?_⟩
          dsimp only
          cases hwrite : agentWriteFileBytes io path with
          | some err =>
            refine ⟨rfl, fun h => absurd h (toolError_not_succeeds err rfl), fun h => absurd h (by simp)⟩
          | none => exact ⟨rfl, fun _ => rfl, fun _ => agentEditLineResult_edited _ a b _⟩

theorem written_of_write {data : Bytes} (h : agentWriteFileBytes io path = none) :
    written io path data = Function.update io.files path (.data data) := by
  unfold agentWriteFileBytes at h
  unfold written
  cases hw : io.write path <;> simp_all

theorem read_eq_data {data : Bytes} (h : agentReadFileBytes io.files path = .ok data) :
    io.files path = .data data := by
  unfold agentReadFileBytes at h
  cases hf : io.files path with
  | noOpen e => simp [hf] at h
  | noRead e => simp [hf] at h
  | data d =>
    rw [hf] at h
    dsimp only at h
    split_ifs at h
    simpa using h

/-- The text stands at a byte position. -/
def Occurs (data old : Bytes) (i : Nat) : Prop := old <+: data.drop i

/-- An old/new edit succeeds only when its text stands at one place, and replaces it there; an error leaves
    the files as they are. -/
structure OldNewExact (io : Io) (st : ToolState) (path old newText : Bytes) : Prop where
  success : Succeeds (agentToolEditOldNew io st path (some old) (some newText)) →
    ∃ data i, agentReadFileBytes io.files path = .ok data ∧ (∀ j, Occurs data old j ↔ j = i) ∧
      (agentToolEditOldNew io st path (some old) (some newText)).files =
        Function.update io.files path (.data (data.take i ++ newText ++ data.drop (i + old.length)))
  error : ¬ Succeeds (agentToolEditOldNew io st path (some old) (some newText)) →
    (agentToolEditOldNew io st path (some old) (some newText)).files = io.files

/-- A line edit that does not succeed leaves the files as they are. -/
def LineErrorsClean (io : Io) (st : ToolState) (path : Bytes) (a b : Nat) (newText : Bytes) : Prop :=
  ¬ Succeeds (agentToolEditLineRange io st path a b (some newText)) →
    (agentToolEditLineRange io st path a b (some newText)).files = io.files

/-- When a write or a close fails, the bytes that have reached the file are those that it had. -/
def FailsClean (io : Io) (path data out : Bytes) : Prop :=
  match io.write path with
  | .ok | .noOpen _                 => True
  | .noWrite _ n | .noClose _ n     => out.take n = data

/-- An old/new edit of `data` comes to its write: the text stands at `i` first, and nowhere behind that
    occurrence. -/
def OldNewWrites (io : Io) (path old data : Bytes) (i : Nat) : Prop :=
  agentReadFileBytes io.files path = .ok data ∧ agentMemmemSimple data old = some i ∧
    agentMemmemSimple (data.drop (i + old.length)) old = none

/-- An old/new edit that comes to its write is one of a text without an occurrence that overlaps the first,
    or its write fails; a write that fails is clean. -/
def OldNewSafe (io : Io) (path old newText : Bytes) : Prop :=
  ∀ data i, OldNewWrites io path old data i →
    (agentWriteFileBytes io path = none → ∀ j, i < j → j < i + old.length → ¬ Occurs data old j) ∧
    FailsClean io path data (spliced data i old.length newText)

/-- A line edit that comes to its write has a clean one. -/
def LineEditSafe (io : Io) (st : ToolState) (path : Bytes) (a b : Nat) (newText : Bytes) : Prop :=
  ∀ data out, LineWrites io st path a b newText data out → FailsClean io path data out

theorem Occurs.le {hay needle : Bytes} (hne : needle ≠ []) {i : Nat} (h : Occurs hay needle i) :
    i + needle.length ≤ hay.length := by
  have hlen := List.IsPrefix.length_le h
  have hpos := List.length_pos_of_ne_nil hne
  rw [List.length_drop] at hlen
  omega

theorem agentMemmemSimple_eq_none {hay needle : Bytes} (hne : needle ≠ []) :
    agentMemmemSimple hay needle = none ↔ ∀ i, ¬ Occurs hay needle i := by
  unfold agentMemmemSimple
  rw [if_neg hne, List.find?_eq_none]
  constructor
  · intro h i hi
    have hle := hi.le hne
    have hmem : i ∈ List.range (hay.length + 1 - needle.length) := List.mem_range.mpr (by omega)
    exact h i hmem (List.isPrefixOf_iff_prefix.mpr hi)
  · intro h i _ hi
    exact h i (List.isPrefixOf_iff_prefix.mp hi)

theorem agentMemmemSimple_first {hay needle : Bytes} (hne : needle ≠ []) {i : Nat}
    (h : agentMemmemSimple hay needle = some i) : Occurs hay needle i ∧ ∀ j < i, ¬ Occurs hay needle j := by
  unfold agentMemmemSimple at h
  rw [if_neg hne, List.find?_range_eq_some] at h
  obtain ⟨hi, -, hfirst⟩ := h
  refine ⟨List.isPrefixOf_iff_prefix.mp hi, fun j hj hocc => ?_⟩
  have := hfirst j hj
  rw [List.isPrefixOf_iff_prefix.mpr hocc] at this
  exact absurd this (by decide)

/-- What a failed write leaves. -/
theorem written_eq_files {data out : Bytes} (hdata : agentReadFileBytes io.files path = .ok data)
    (hfail : agentWriteFileBytes io path ≠ none) :
    written io path out = io.files ↔ FailsClean io path data out := by
  have hfile := read_eq_data hdata
  have hupd : ∀ d, Function.update io.files path (.data d) = io.files ↔ d = data := by
    intro d
    rw [Function.update_eq_self_iff, hfile]
    simp
  unfold written FailsClean
  unfold agentWriteFileBytes at hfail
  cases hw : io.write path with
  | ok          => simp [hw] at hfail
  | noOpen e    => simp
  | noWrite e n => exact hupd _
  | noClose e n => exact hupd _

theorem notFound_starts : lit "Tool error: " <+: (say (lit "Tool error: old text not found\n")).text := by
  decide

theorem notUnique_starts : lit "Tool error: " <+: (say (lit ("Tool error: old text is not unique; " ++
    "read the target lines and retry with line/range plus new\n"))).text := by
  decide

/-- An old/new edit is rejected, or comes to its write. -/
theorem agentToolEditOldNew_cases (io : Io) (st : ToolState) (path : Bytes) {old : Bytes} (hold : old ≠ [])
    (newText : Bytes) :
    (Rejected io (agentToolEditOldNew io st path (some old) (some newText)) ∧
      ∀ data i, ¬ OldNewWrites io path old data i) ∨
    ∃ data i, OldNewWrites io path old data i ∧
      (agentToolEditOldNew io st path (some old) (some newText)).files =
        written io path (spliced data i old.length newText) ∧
      (Succeeds (agentToolEditOldNew io st path (some old) (some newText)) ↔
        agentWriteFileBytes io path = none) := by
  unfold agentToolEditOldNew
  dsimp only [Option.getD_some]
  rw [if_neg hold]
  cases hdata : agentReadFileBytes io.files path with
  | error err =>
    refine Or.inl ⟨⟨toolError_starts err, rfl⟩, fun data i h => ?_⟩
    exact absurd (hdata.symm.trans h.1) (by simp)
  | ok data =>
    dsimp only
    cases hfirst : agentMemmemSimple data old with
    | none =>
      refine Or.inl ⟨⟨notFound_starts, rfl⟩, fun data' i h => ?_⟩
      obtain rfl : data = data' := by simpa using (hdata.symm).trans h.1
      exact absurd (hfirst.symm.trans h.2.1) (by simp)
    | some i =>
      dsimp only
      by_cases hsecond : (agentMemmemSimple (data.drop (i + old.length)) old).isSome = true
      · rw [if_pos hsecond]
        refine Or.inl ⟨⟨notUnique_starts, rfl⟩, fun data' i' h => ?_⟩
        obtain rfl : data = data' := by simpa using (hdata.symm).trans h.1
        obtain rfl : i = i' := by simpa using (hfirst.symm).trans h.2.1
        rw [h.2.2] at hsecond
        exact absurd hsecond (by decide)
      · rw [if_neg hsecond]
        refine Or.inr ⟨data, i, ⟨hdata, hfirst, by simpa using hsecond⟩, ?_⟩
        cases hwrite : agentWriteFileBytes io path with
        | some err =>
          exact ⟨rfl, fun h => absurd h (toolError_not_succeeds err rfl), fun h => absurd h (by simp)⟩
        | none =>
          dsimp only
          generalize agentOldNewLineEffect data (spliced data i old.length newText) i old.length = effect
          obtain ⟨s, e, d⟩ := effect
          exact ⟨rfl, fun _ => rfl, fun _ => agentEditOldNewResult_edited _ s e d⟩

/-- **Old/new edits.**  They are exact when they are safe. -/
theorem oldNewExact_iff (io : Io) (st : ToolState) (path : Bytes) {old : Bytes} (hold : old ≠ [])
    (newText : Bytes) : OldNewExact io st path old newText ↔ OldNewSafe io path old newText := by
  rcases agentToolEditOldNew_cases io st path hold newText with ⟨hrej, hno⟩ | ⟨data, i, hw, hfiles, hsucc⟩
  · exact ⟨fun _ data i h => absurd h (hno data i),
      fun _ => ⟨fun hs => absurd hs hrej.not_succeeds, fun _ => hrej.2⟩⟩
  · obtain ⟨hdata, hfirst, hsecond⟩ := hw
    obtain ⟨hocc, hbefore⟩ := agentMemmemSimple_first hold hfirst
    have hbehind := (agentMemmemSimple_eq_none hold).mp hsecond
    have honly : ∀ data' i', OldNewWrites io path old data' i' → data' = data ∧ i' = i := by
      rintro data' i' ⟨h1, h2, -⟩
      obtain rfl : data = data' := by simpa using (hdata.symm).trans h1
      obtain rfl : i = i' := by simpa using (hfirst.symm).trans h2
      exact ⟨rfl, rfl⟩
    constructor
    · intro hexact data' i' hw'
      obtain ⟨rfl, rfl⟩ := honly data' i' hw'
      refine ⟨fun hok j hij _ hj => ?_, ?_⟩
      · obtain ⟨data'', i'', hdata'', huniq, -⟩ := hexact.success (hsucc.mpr hok)
        obtain rfl : data' = data'' := by simpa using (hdata.symm).trans hdata''
        have h1 := (huniq i').mp hocc
        have h2 := (huniq j).mp hj
        omega
      · by_cases hok : agentWriteFileBytes io path = none
        · unfold agentWriteFileBytes at hok
          unfold FailsClean
          cases hww : io.write path <;> simp_all
        · rw [← written_eq_files hdata hok, ← hfiles]
          exact hexact.error fun hs => hok (hsucc.mp hs)
    · intro hsafe
      obtain ⟨hoverlap, hclean⟩ := hsafe data i ⟨hdata, hfirst, hsecond⟩
      refine ⟨fun hs => ?_, fun hs => ?_⟩
      · have hok := hsucc.mp hs
        refine ⟨data, i, hdata, fun j => ⟨fun hj => ?_, fun hj => hj ▸ hocc⟩, ?_⟩
        · by_contra hne
          rcases Nat.lt_or_gt_of_ne hne with hlt | hgt
          · exact hbefore j hlt hj
          · by_cases hin : j < i + old.length
            · exact hoverlap hok j hgt hin hj
            · -- behind the first occurrence
              apply hbehind (j - (i + old.length))
              unfold Occurs at hj ⊢
              rw [List.drop_drop, Nat.add_sub_cancel' (by omega)]
              exact hj
        · rw [hfiles, written_of_write hok]
          rfl
      · have hfail : agentWriteFileBytes io path ≠ none := fun hok => hs (hsucc.mpr hok)
        rw [hfiles]
        exact (written_eq_files hdata hfail).mpr hclean

theorem lineErrorsClean_iff (io : Io) (st : ToolState) (path : Bytes) (a b : Nat) (newText : Bytes) :
    LineErrorsClean io st path a b newText ↔ LineEditSafe io st path a b newText := by
  rcases agentToolEditLineRange_cases io st path a b (some newText) with
    ⟨hrej, hno⟩ | ⟨data, out, hw, hfiles, hsucc⟩
  · exact ⟨fun _ data out h => absurd h (hno data out), fun _ _ => hrej.2⟩
  · have honly : ∀ data' out', LineWrites io st path a b newText data' out' → data' = data ∧ out' = out := by
      rintro data' out' ⟨-, -, hdata', -, lo, hi, nl, hr, rfl⟩
      obtain ⟨-, -, hdata, -, lo', hi', nl', hr', rfl⟩ := hw
      obtain rfl : data = data' := by simpa using (hdata.symm).trans hdata'
      obtain ⟨rfl, rfl, rfl⟩ : lo = lo' ∧ hi = hi' ∧ nl = nl' := by simpa using (hr.symm).trans hr'
      exact ⟨rfl, rfl⟩
    have hdata := hw.2.2.1
    by_cases hok : agentWriteFileBytes io path = none
    · have hclean : FailsClean io path data out := by
        unfold agentWriteFileBytes at hok
        unfold FailsClean
        cases hww : io.write path <;> simp_all
      refine ⟨fun _ data' out' h => ?_, fun _ hs => absurd (hsucc.mpr hok) hs⟩
      obtain ⟨rfl, rfl⟩ := honly data' out' h
      exact hclean
    · have hiff : written io path out = io.files ↔ FailsClean io path data out := written_eq_files hdata hok
      constructor
      · intro hclean data' out' h
        obtain ⟨rfl, rfl⟩ := honly data' out' h
        rw [← hiff, ← hfiles]
        exact hclean fun hs => hok (hsucc.mp hs)
      · intro hsafe _
        rw [hfiles]
        exact hiff.mpr (hsafe data out hw)

end

end DS4.Agent
