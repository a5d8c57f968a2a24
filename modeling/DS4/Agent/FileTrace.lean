import DS4.Agent.FileTools

namespace DS4.Agent

/-!
# Agent — the file tools remember what they print

Each tool that works on files remembers lines.  Behind each of them the remembered checksums are those of the
lines that it printed or that the model supplied, or older ones.

* `appendLines_seen`, `contextOut_covers` — which lines are printed.
* `mem_suppliedLines_of_count`, `count_of_mem_suppliedLines` — which lines the model supplied.
* `agentExecuteToolCall_traces` — the result for all calls.
-/

open DS4.Tokenizer DS4.Lib

/-! ### Lines of a file -/

section
variable {path data : Bytes} {n : Nat}

theorem lineAt_eq_some (h : 0 < n) (hle : n ≤ (agentSplitLines data).length) :
    lineAt data n = some (lineContent data n) := by
  have hlt : n - 1 < (lines data).length := by
    show n - 1 < (agentSplitLines data).length
    omega
  unfold lineContent lineAt
  rw [if_neg (by omega), List.getElem?_eq_getElem hlt]
  rfl

/-- The lines of a file with these numbers. -/
def seenRange (path data : Bytes) (a b : Nat) : List Seen :=
  (List.range' a (b + 1 - a)).map fun n => ⟨path, n, lineContent data n⟩

theorem mem_seenRange {e : Seen} {a b : Nat} :
    e ∈ seenRange path data a b ↔
      a ≤ e.line ∧ e.line ≤ b ∧ e.path = path ∧ e.content = lineContent data e.line := by
  unfold seenRange
  rw [List.mem_map]
  constructor
  · rintro ⟨n, hn, rfl⟩
    have := List.mem_range'_1.mp hn
    exact ⟨this.1, show n ≤ b by omega, rfl, rfl⟩
  · rintro ⟨ha, hb, rfl, hc⟩
    exact ⟨e.line, List.mem_range'_1.mpr ⟨ha, by omega⟩, hc ▸ rfl⟩

theorem ofFile_seenRange {a b : Nat} (ha : 0 < a) (hb : b ≤ (agentSplitLines data).length) :
    OfFile (seenRange path data a b) path data := by
  intro e he
  obtain ⟨h1, h2, hp, hc⟩ := (mem_seenRange).mp he
  refine ⟨hp, ?_⟩
  rw [hc]
  exact lineAt_eq_some (Nat.lt_of_lt_of_le ha h1) (Nat.le_trans h2 hb)

/-! ### Printing -/

theorem foldl_line (o : Out) (ns : List Nat) :
    (ns.foldl (fun o n => o.line [] path n (lineContent data n)) o).seen =
      o.seen ++ ns.map fun n => ⟨path, n, lineContent data n⟩ := by
  induction ns generalizing o with
  | nil => exact (List.append_nil _).symm
  | cons n ns ih =>
    rw [List.foldl_cons, ih]
    simp [Out.seen, Out.line]

theorem appendLines_seen (o : Out) (a b : Nat) :
    (appendLines o path data a b).seen = o.seen ++ seenRange path data a b := foldl_line o _

theorem appendLines_sound {o : Out} (h : o.Sound) (a b : Nat) : (appendLines o path data a b).Sound := by
  unfold appendLines
  generalize List.range' a (b + 1 - a) = ns
  induction ns generalizing o with
  | nil          => exact h
  | cons n ns ih => exact ih (h.line (List.not_mem_nil) path n _)

@[simp] theorem puts_seen (o : Out) (s : Bytes) : (o.puts s).seen = o.seen := rfl

@[simp] theorem say_seen (s : Bytes) : (say s).seen = [] := rfl

theorem say_sound (s : Bytes) : (say s).Sound := (Out.Sound.nil).puts s

theorem toolError_sound (err : Bytes) : (toolError err).Sound := ((say_sound _).puts _).puts _

@[simp] theorem toolError_seen (err : Bytes) : (toolError err).seen = [] := rfl

end

/-! ### Supplied lines -/

section
variable {path pre new post : Bytes} {n : Nat}

theorem mem_suppliedLines {data : Bytes} {lo hi : Nat} {e : Seen} :
    e ∈ suppliedLines path data lo hi ↔
      ∃ sp, 0 < e.line ∧ (agentSplitLines data)[e.line - 1]? = some sp ∧ lo ≤ sp.start ∧ sp.stop ≤ hi ∧
        e = ⟨path, e.line, sp.content data⟩ := by
  unfold suppliedLines
  rw [List.mem_filterMap]
  constructor
  · rintro ⟨n, hn, h⟩
    obtain ⟨sp, hsp, h⟩ := Option.bind_eq_some_iff.mp h
    split_ifs at h with hin
    obtain rfl := Option.some.inj h
    have := List.mem_range'_1.mp hn
    exact ⟨sp, show 0 < n by omega, hsp, hin.1, hin.2, rfl⟩
  · rintro ⟨sp, hpos, hsp, hlo, hhi, he⟩
    have hlt := (List.getElem?_eq_some_iff.mp hsp).1
    refine ⟨e.line, List.mem_range'_1.mpr ⟨hpos, by omega⟩, ?_⟩
    rw [hsp, Option.bind_some, if_pos ⟨hlo, hhi⟩, ← he]

theorem ofFile_suppliedLines (data : Bytes) (lo hi : Nat) :
    OfFile (suppliedLines path data lo hi) path data := by
  intro e he
  obtain ⟨sp, hpos, hsp, -, -, heq⟩ := (mem_suppliedLines).mp he
  have hsp : (lines data)[e.line - 1]? = some sp := hsp
  have hcontent : e.content = sp.content data := by rw [heq]
  refine ⟨by rw [heq], ?_⟩
  rw [lineAt, if_neg (by omega), hsp, hcontent]
  rfl

/-- A supplied line has a number among those of the text put in. -/
theorem count_of_mem_suppliedLines {e : Seen}
    (h : e ∈ suppliedLines path (pre ++ new ++ post) pre.length (pre.length + new.length)) :
    countLines pre < e.line ∧ e.line ≤ countLines (pre ++ new) := by
  obtain ⟨sp, hpos, hsp, hlo, hhi, -⟩ := (mem_suppliedLines).mp h
  have hb := bounds_linesFrom (Nat.le_refl 0) (List.mem_of_getElem? hsp)
  have h2 : sp.start < (pre ++ new).length := by
    rw [List.length_append]
    omega
  have h2 := (start_lt_iff hsp).mp h2
  have h1 : ¬ e.line - 1 < countLines pre := by
    have hsp' : (lines (pre ++ (new ++ post)))[e.line - 1]? = some sp := by rwa [← List.append_assoc]
    rw [← start_lt_iff hsp']
    omega
  omega

/-- A line with such a number, the last apart, is supplied. -/
theorem mem_suppliedLines_of_count (h1 : countLines pre < n) (h2 : n < countLines (pre ++ new)) :
    ∃ e ∈ suppliedLines path (pre ++ new ++ post) pre.length (pre.length + new.length), e.line = n := by
  have hlen : n - 1 < (lines (pre ++ new ++ post)).length := by
    have := countLines_le_append (pre ++ new) post
    rw [length_lines]
    omega
  obtain ⟨sp, hsp⟩ : ∃ sp, (lines (pre ++ new ++ post))[n - 1]? = some sp :=
    ⟨_, List.getElem?_eq_getElem hlen⟩
  have hstop := stop_le_of_lt hsp (by omega)
  have hstart : ¬ sp.start < pre.length := by
    have hsp' : (lines (pre ++ (new ++ post)))[n - 1]? = some sp := by rwa [← List.append_assoc]
    rw [start_lt_iff hsp']
    omega
  rw [List.length_append] at hstop
  exact ⟨⟨path, n, sp.content _⟩, (mem_suppliedLines).mpr ⟨sp, show 0 < n by omega, hsp, by omega, hstop, rfl⟩, rfl⟩

end

/-! ### The context of an edit -/

section
variable {views views' : Views} {path data : Bytes} {o : Out}

/-- The context is a range of lines of the file that has the edited lines. -/
theorem contextOf_bounds {total : Nat} (h : 0 < total) (a b : Nat) :
    0 < (contextOf total a b).start ∧ (contextOf total a b).start ≤ (contextOf total a b).anchorStart ∧
      (contextOf total a b).anchorStart ≤ (contextOf total a b).anchorEnd ∧
      (contextOf total a b).anchorEnd ≤ (contextOf total a b).stop ∧
      (contextOf total a b).stop ≤ total := by
  simp only [contextOf]
  omega

/-- The lines that a context prints. -/
theorem contextOut_ofFile (ho : o.seen = []) {total a b : Nat} (htotal : total = (agentSplitLines data).length)
    (hpos : 0 < total) : OfFile (contextOut o path data total (contextOf total a b)).seen path data := by
  have hb := contextOf_bounds hpos a b
  generalize contextOf total a b = c at hb ⊢
  unfold contextOut
  dsimp only
  split_ifs with hfew
  · rw [appendLines_seen, puts_seen, ho, List.nil_append]
    exact ofFile_seenRange hb.1 (htotal ▸ hb.2.2.2.2)
  · rw [appendLines_seen, puts_seen, appendLines_seen, puts_seen, ho, List.nil_append]
    have hmany : 36 < c.anchorEnd - c.anchorStart + 1 := Nat.lt_of_not_le hfew
    apply OfFile.append
    · exact ofFile_seenRange hb.1 (by simp only [EDITED_CONTEXT_HEAD]; omega)
    · exact ofFile_seenRange (by simp only [EDITED_CONTEXT_TAIL]; omega) (htotal ▸ hb.2.2.2.2)

/-- A context prints its lines, those apart that are far from both ends of the edit. -/
theorem contextOut_covers {total n : Nat} {c : Context} (hstart : c.start ≤ n) (hstop : n ≤ c.stop)
    (homitted : ¬ (c.anchorStart + 18 ≤ n ∧ n + 18 ≤ c.anchorEnd)) :
    ∃ e ∈ (contextOut o path data total c).seen, e.line = n := by
  unfold contextOut
  dsimp only
  split_ifs with hfew
  · rw [appendLines_seen]
    exact ⟨⟨path, n, lineContent data n⟩,
      List.mem_append_right _ ((mem_seenRange).mpr ⟨hstart, hstop, rfl, rfl⟩), rfl⟩
  · rw [appendLines_seen, puts_seen, appendLines_seen]
    by_cases hhead : n ≤ c.anchorStart + EDITED_CONTEXT_HEAD - 1
    · exact ⟨⟨path, n, lineContent data n⟩, List.mem_append_left _
        (List.mem_append_right _ ((mem_seenRange).mpr ⟨hstart, hhead, rfl, rfl⟩)), rfl⟩
    · have htail : c.anchorEnd - EDITED_CONTEXT_TAIL + 1 ≤ n := by
        simp only [EDITED_CONTEXT_HEAD, EDITED_CONTEXT_TAIL] at hhead ⊢
        omega
      exact ⟨⟨path, n, lineContent data n⟩,
        List.mem_append_right _ ((mem_seenRange).mpr ⟨htail, hstop, rfl, rfl⟩), rfl⟩

theorem contextOut_lines {total a b : Nat} (ho : o.seen = []) (hpos : 0 < total) {e : Seen}
    (he : e ∈ (contextOut o path data total (contextOf total a b)).seen) :
    (contextOf total a b).start ≤ e.line ∧ e.line ≤ (contextOf total a b).stop := by
  have hb := contextOf_bounds hpos a b
  generalize contextOf total a b = c at hb he ⊢
  unfold contextOut at he
  dsimp only at he
  split_ifs at he with hfew
  · rw [appendLines_seen, puts_seen, ho, List.nil_append] at he
    obtain ⟨h1, h2, -⟩ := (mem_seenRange).mp he
    exact ⟨h1, h2⟩
  · rw [appendLines_seen, puts_seen, appendLines_seen, puts_seen, ho, List.nil_append] at he
    have hmany : 36 < c.anchorEnd - c.anchorStart + 1 := Nat.lt_of_not_le hfew
    simp only [EDITED_CONTEXT_HEAD, EDITED_CONTEXT_TAIL] at he
    rcases List.mem_append.mp he with he | he
    · obtain ⟨h1, h2, -⟩ := (mem_seenRange).mp he
      exact ⟨h1, by omega⟩
    · obtain ⟨h1, h2, -⟩ := (mem_seenRange).mp he
      exact ⟨by omega, h2⟩

theorem contextOut_sound (ho : o.Sound) (total : Nat) (c : Context) :
    (contextOut o path data total c).Sound := by
  unfold contextOut
  dsimp only
  split_ifs
  · exact appendLines_sound (ho.puts _) _ _
  · exact appendLines_sound ((appendLines_sound (ho.puts _) _ _).puts _) _ _

theorem agentEditResultAppendContext_sound (ho : o.Sound) (a b : Nat) :
    (agentEditResultAppendContext views o path data a b).1.Sound := by
  unfold agentEditResultAppendContext
  dsimp only
  split_ifs
  · exact ho
  · exact contextOut_sound ho _ _

/-- **Context.**  Behind an edit that has forgotten the lines it touched, the context is remembered.  What is
    remembered then was printed or supplied. -/
theorem agentEditResultAppendContext_traces (hpath : path ≠ []) (ho : o.seen = []) {a b : Nat}
    {sup : List Seen} (hsup : OfFile sup path data)
    (hother : ∀ path' n, path' ≠ path → known views' path' n = known views path' n)
    (hself : ∀ n crc, known views' path n = some crc → known views path n = some crc ∨
      (contextOf (agentSplitLines data).length a b).anchorStart ≤ n ∧
        n ≤ (contextOf (agentSplitLines data).length a b).anchorEnd ∧ 0 < (agentSplitLines data).length)
    (hin : ∀ e ∈ sup, (contextOf (agentSplitLines data).length a b).start ≤ e.line ∧
      e.line ≤ (contextOf (agentSplitLines data).length a b).stop)
    (homitted : ∀ n, (contextOf (agentSplitLines data).length a b).anchorStart + 18 ≤ n →
      n + 18 ≤ (contextOf (agentSplitLines data).length a b).anchorEnd → ∃ e ∈ sup, e.line = n) :
    Traces views (agentEditResultAppendContext views' o path data a b).2
      (sup ++ (agentEditResultAppendContext views' o path data a b).1.seen) := by
  unfold agentEditResultAppendContext
  dsimp only
  by_cases hzero : (agentSplitLines data).length = 0
  · -- an empty file has no lines
    rw [if_pos hzero, ho, List.append_nil]
    have hnone : sup = [] := by
      rw [List.eq_nil_iff_forall_not_mem]
      intro e he
      have hat := (hsup e he).2
      have hnil : lines data = [] := List.length_eq_zero_iff.mp hzero
      rw [lineAt, hnil] at hat
      split_ifs at hat
      simp at hat
    subst hnone
    have hnone : OfFile [] path data := fun e he => absurd he List.not_mem_nil
    refine hnone.traces hother ?_
    intro n crc hk
    refine Or.inr ⟨fun e he => absurd he List.not_mem_nil, ?_⟩
    rcases hself n crc hk with h | h
    · exact h
    · exact absurd h.2.2 (by omega)
  · rw [if_neg hzero]
    have hpos : 0 < (agentSplitLines data).length := Nat.pos_of_ne_zero hzero
    have hb := contextOf_bounds hpos a b
    have hof := hsup.append (contextOut_ofFile ho rfl hpos (a := a) (b := b))
    have hlines := fun {e : Seen} => @contextOut_lines path data o (agentSplitLines data).length a b ho hpos e
    have hcovers := fun n => @contextOut_covers path data o (agentSplitLines data).length n
      (contextOf (agentSplitLines data).length a b)
    generalize contextOf (agentSplitLines data).length a b = c at *
    refine hof.traces ?_ ?_
    · intro path' n hp
      rw [known_rememberRange hpath hb.2.2.2.2, if_neg fun h => hp h.1]
      exact hother path' n hp
    · intro n crc hk
      rw [known_rememberRange hpath hb.2.2.2.2] at hk
      split_ifs at hk with hr
      · refine Or.inl ⟨?_, hk⟩
        by_cases hom : c.anchorStart + 18 ≤ n ∧ n + 18 ≤ c.anchorEnd
        · obtain ⟨e, he, hn⟩ := homitted n hom.1 hom.2
          exact ⟨e, List.mem_append_left _ he, hn⟩
        · obtain ⟨e, he, hn⟩ := hcovers n (by omega) hr.2.2 hom
          exact ⟨e, List.mem_append_right _ he, hn⟩
      · have hout : ¬ (c.start ≤ n ∧ n ≤ c.stop) := fun h => hr ⟨rfl, by omega, h.2⟩
        refine Or.inr ⟨?_, ?_⟩
        · intro e he hn
          apply hout
          rw [← hn]
          rcases List.mem_append.mp he with he | he
          · exact hin e he
          · exact hlines he
        · rcases hself n crc hk with h | h
          · exact h
          · exact absurd ⟨by omega, by omega⟩ hout

end

/-! ### Edits -/

section
variable {views : Views} {path data pre new post : Bytes} {a b : Nat}

theorem countLines_insertedText (newText : Bytes) (hadNewline : Bool) :
    countLines (insertedText newText hadNewline) =
      agentEditReplacementLineCount newText (addsNewline newText hadNewline) := by
  unfold insertedText agentEditReplacementLineCount agentCountTextLines
  by_cases hadd : addsNewline newText hadNewline = true
  · rw [if_pos hadd]
    obtain ⟨-, hne, hlast⟩ := of_decide_eq_true hadd
    have hcount : countLines (newText ++ [0x0a]) = countLines newText := countFrom_concat_lf false hne hlast
    have hpos : 0 < countLines newText := by
      obtain ⟨c, s, rfl⟩ := List.exists_cons_of_ne_nil hne
      exact countFrom_pos false c s
    rw [hcount, if_pos (by omega)]
  · rw [if_neg hadd, if_neg hadd]
    split_ifs with h0
    · rfl
    · exact not_not.mp h0

/-- The bytes of a range of lines. -/
theorem rangeBytes_eq {lo hi : Nat} {hadNewline : Bool} (ha : 0 < a) (hab : a ≤ b)
    (h : rangeBytes data a b = some (lo, hi, hadNewline)) :
    countLines (data.take lo) + 1 = a ∧ lo ≤ hi ∧ hi ≤ data.length ∧ (data.take lo).length = lo := by
  obtain ⟨s, hs, h⟩ := Option.bind_eq_some_iff.mp h
  obtain ⟨e, he, h⟩ := Option.map_eq_some_iff.mp h
  simp only [Prod.mk.injEq] at h
  obtain ⟨rfl, rfl, -⟩ := h
  have hs : (lines data)[a - 1]? = some s := hs
  have he : (lines data)[b - 1]? = some e := he
  have hbs := bounds_linesFrom (Nat.le_refl 0) (List.mem_of_getElem? hs)
  have hbe := bounds_linesFrom (Nat.le_refl 0) (List.mem_of_getElem? he)
  have hcount := countLines_take hs
  have hle : s.start ≤ e.stop := Nat.le_of_lt (start_lt_stop hs he (by omega))
  refine ⟨by omega, hle, by omega, ?_⟩
  rw [List.length_take]
  omega

/-- Behind a line edit. -/
theorem agentEditLineResult_traces (hpath : path ≠ []) {r : Nat} (hpre : countLines pre + 1 = a)
    (hnew : countLines new = r) :
    Traces views
      (agentEditLineResult (updateViewAfterEdit views path (pre ++ new ++ post) a b r) path a b r
        (pre ++ new ++ post)).2
      (suppliedLines path (pre ++ new ++ post) pre.length (pre.length + new.length) ++
        (agentEditLineResult (updateViewAfterEdit views path (pre ++ new ++ post) a b r) path a b r
          (pre ++ new ++ post)).1.seen) := by
  have hadd := countLines_add_le pre new
  have hle := countLines_append_le pre new
  have htotal : (agentSplitLines (pre ++ new ++ post)).length = countLines (pre ++ new ++ post) := length_lines _
  have hmono := countLines_le_append (pre ++ new) post
  unfold agentEditLineResult
  apply agentEditResultAppendContext_traces hpath
  · split_ifs <;> rfl
  · exact ofFile_suppliedLines _ _ _
  · intro path' n hp
    exact known_updateViewAfterEdit_of_ne hp n
  · intro n crc hk
    rcases known_updateViewAfterEdit hk with ⟨h1, h2, h3⟩ | hk
    · right
      simp only [contextOf]
      split_ifs <;> omega
    · exact Or.inl hk
  · intro e he
    have := count_of_mem_suppliedLines he
    simp only [contextOf, CONTEXT_BEFORE, CONTEXT_AFTER]
    split_ifs <;> omega
  · intro n h1 h2
    simp only [contextOf] at h1 h2
    apply mem_suppliedLines_of_count
    · split_ifs at h1 h2 <;> omega
    · split_ifs at h1 h2 <;> omega

/-- The line that a byte of a text lies in. -/
theorem agentLineForOffset_eq {off : Nat} (h : off < data.length) :
    agentLineForOffset (agentSplitLines data) off = countLines (data.take (off + 1)) := by
  obtain ⟨hidx, hmono⟩ := findIdx_stop h
  have hne : lines data ≠ [] := by
    intro hnil
    have hlen := length_lines data
    rw [hnil, List.length_nil] at hlen
    omega
  unfold agentLineForOffset agentSplitLines
  rw [if_neg hne, hidx, length_lines]
  exact Nat.min_eq_left hmono

/-- The lines that an old/new edit touches, and the shift of the others. -/
theorem agentOldNewLineEffect_eq {old : Bytes} (hold : old ≠ []) :
    agentOldNewLineEffect (pre ++ old ++ post) (pre ++ new ++ post) pre.length old.length =
      (countLines (pre ++ old.take 1), countLines (pre ++ old),
        (countLines (pre ++ new ++ post) : Int) - countLines (pre ++ old ++ post)) := by
  have hlen : 0 < old.length := List.length_pos_of_ne_nil hold
  have htotal : (pre ++ old ++ post).length = pre.length + old.length + post.length := by
    simp only [List.length_append]
  have hne : agentSplitLines (pre ++ old ++ post) ≠ [] := by
    intro hnil
    have h0 : pre.length < (pre ++ old ++ post).length := by omega
    have h1 := findIdx_stop h0
    have h2 := length_lines (pre ++ old ++ post)
    have h3 : lines (pre ++ old ++ post) = [] := hnil
    rw [h3, List.length_nil] at h2
    omega
  have hlast : oldLast (pre ++ old ++ post) pre.length old.length = pre.length + old.length - 1 := by
    unfold oldLast
    omega
  have htake1 : (pre ++ old ++ post).take (pre.length + 1) = pre ++ old.take 1 := by
    rw [List.append_assoc, List.take_length_add_append, List.take_append_of_le_length (by omega)]
  have htake2 : (pre ++ old ++ post).take (pre.length + old.length - 1 + 1) = pre ++ old := by
    have : pre.length + old.length - 1 + 1 = (pre ++ old).length := by
      rw [List.length_append]
      omega
    rw [this, List.take_left]
  unfold agentOldNewLineEffect
  dsimp only
  rw [if_neg hne, hlast, agentLineForOffset_eq (by omega), agentLineForOffset_eq (by omega), htake1, htake2]
  rw [agentSplitLines, agentSplitLines, length_lines, length_lines]

/-- Behind an old/new edit. -/
theorem agentEditOldNewResult_traces (hpath : path ≠ []) {old : Bytes} (hold : old ≠ []) {s e : Nat} {d : Int}
    (heffect : agentOldNewLineEffect (pre ++ old ++ post) (pre ++ new ++ post) pre.length old.length =
      (s, e, d)) :
    Traces views
      (agentEditOldNewResult (updateViewAfterOldNew views path (pre ++ old ++ post) (pre ++ new ++ post)
        pre.length old.length) path s e d (pre ++ new ++ post)).2
      (suppliedLines path (pre ++ new ++ post) pre.length (pre.length + new.length) ++
        (agentEditOldNewResult (updateViewAfterOldNew views path (pre ++ old ++ post) (pre ++ new ++ post)
          pre.length old.length) path s e d (pre ++ new ++ post)).1.seen) := by
  rw [agentOldNewLineEffect_eq hold] at heffect
  simp only [Prod.mk.injEq] at heffect
  obtain ⟨hs, he, hd⟩ := heffect
  have hlen : 0 < old.length := List.length_pos_of_ne_nil hold
  -- the lines before the edit, those of the touched text, and those behind it
  have h1 := countLines_add_le (pre ++ old) post
  have h2 := countLines_append_le (pre ++ old) post
  have h3 := countLines_add_le (pre ++ new) post
  have h4 := countLines_append_le (pre ++ new) post
  have h5 := countLines_le_append (pre ++ new) post
  have h6 : countLines (pre ++ old.take 1) ≤ countLines (pre ++ old) := by
    have := countLines_le_append (pre ++ old.take 1) (old.drop 1)
    rwa [List.append_assoc, List.take_append_drop] at this
  have h7 := countLines_append_le pre (old.take 1)
  have h8 : countLines (old.take 1) = 1 := by
    obtain ⟨c, t, rfl⟩ := List.exists_cons_of_ne_nil hold
    rfl
  have h9 := countLines_le_append pre (old.take 1)
  have h10 := countLines_le_append pre new
  have hspos : 0 < s := by
    cases pre with
    | nil      => rw [← hs, List.nil_append, h8]; exact Nat.one_pos
    | cons c t => rw [← hs]; exact countFrom_pos false c _
  have htotal : (agentSplitLines (pre ++ new ++ post)).length = countLines (pre ++ new ++ post) := length_lines _
  unfold agentEditOldNewResult
  dsimp only
  rw [if_pos ⟨hspos, by omega⟩]
  apply agentEditResultAppendContext_traces hpath
  · split_ifs <;> rfl
  · exact ofFile_suppliedLines _ _ _
  · intro path' n hp
    exact known_updateViewAfterOldNew_of_ne hp n
  · intro n crc hk
    exact Or.inl (known_updateViewAfterOldNew hk)
  · intro e' he'
    have := count_of_mem_suppliedLines he'
    simp only [contextOf, CONTEXT_BEFORE, CONTEXT_AFTER]
    omega
  · intro n h1 h2
    simp only [contextOf] at h1 h2
    apply mem_suppliedLines_of_count
    · omega
    · omega

end

/-! ### Calls -/

/-- A call remembers what it prints and what the model supplies; its lines are in its output. -/
structure CallOut.Traced (r : CallOut) (views : Views) : Prop where
  traces : Traces views r.state.views (r.supplied ++ r.out.seen)
  sound  : r.out.marks = [] ∨ r.out.Sound

section
variable {io : Io} {st : ToolState} {path data : Bytes}

/-- A call that prints no lines and keeps the views. -/
theorem CallOut.Traced.quiet {r : CallOut} (hviews : r.state.views = st.views) (hsup : r.supplied = [])
    (hmarks : r.out.marks = []) : r.Traced st.views := by
  refine ⟨?_, Or.inl hmarks⟩
  rw [hviews, hsup, Out.seen, hmarks]
  exact Traces.refl _

/-- The lines that a file has. -/
theorem lineAt_isSome_bounds {n : Nat} {crc : BitVec 32} (h : (lineAt data n).map agentLineCrc = some crc) :
    0 < n ∧ n ≤ (agentSplitLines data).length := by
  obtain ⟨c, hc, -⟩ := Option.map_eq_some_iff.mp h
  unfold lineAt at hc
  split_ifs at hc with h0
  obtain ⟨sp, hsp, -⟩ := Option.map_eq_some_iff.mp hc
  have hlt : n - 1 < (agentSplitLines data).length := (List.getElem?_eq_some_iff.mp hsp).1
  omega

/-- Remembering a whole file whose lines were all printed or supplied. -/
theorem rememberWholeFile_traces (hpath : path ≠ []) {views : Views} {ev : List Seen}
    (hev : OfFile ev path data)
    (hall : ∀ n, 0 < n → n ≤ (agentSplitLines data).length → ∃ e ∈ ev, e.line = n) :
    Traces views (rememberWholeFile views path data) ev := by
  refine hev.traces ?_ ?_
  · intro path' n hp
    rw [known_rememberWholeFile hpath, if_neg hp]
  · intro n crc hk
    rw [known_rememberWholeFile hpath, if_pos rfl] at hk
    have hn := lineAt_isSome_bounds hk
    exact Or.inl ⟨hall n hn.1 hn.2, hk⟩

/-- All lines of a text that the model supplied whole. -/
theorem mem_suppliedLines_whole {n : Nat} (h0 : 0 < n) (hn : n ≤ (agentSplitLines data).length) :
    ∃ e ∈ suppliedLines path data 0 data.length, e.line = n := by
  have hlt : n - 1 < (agentSplitLines data).length := by omega
  obtain ⟨sp, hsp⟩ : ∃ sp, (agentSplitLines data)[n - 1]? = some sp := ⟨_, List.getElem?_eq_getElem hlt⟩
  have hb := bounds_linesFrom (Nat.le_refl 0) (List.mem_of_getElem? hsp)
  exact ⟨⟨path, n, sp.content data⟩,
    (mem_suppliedLines).mpr ⟨sp, h0, hsp, Nat.zero_le _, by omega, rfl⟩, rfl⟩

theorem bareOut_marks (data : Bytes) (startIdx : Nat) (endIdx maxLines : Int) :
    (bareOut data startIdx endIdx maxLines).marks = [] := by
  unfold bareOut
  dsimp only
  split_ifs <;> rfl

/-- Behind a read with line numbers. -/
theorem read_traces (hpath : path ≠ []) {views : Views} {startIdx : Nat} {endIdx : Int}
    (hle : endIdx ≤ (agentSplitLines data).length) :
    Traces views
      (if startIdx = 0 ∧ endIdx = (agentSplitLines data).length then rememberWholeFile views path data
        else rememberRange views path data startIdx endIdx.toNat)
      (seenRange path data (startIdx + 1) endIdx.toNat) := by
  have hof : OfFile (seenRange path data (startIdx + 1) endIdx.toNat) path data :=
    ofFile_seenRange (Nat.succ_pos _) (by omega)
  have hmem : ∀ n, startIdx < n → n ≤ endIdx.toNat →
      ∃ e ∈ seenRange path data (startIdx + 1) endIdx.toNat, e.line = n := fun n h1 h2 =>
    ⟨⟨path, n, lineContent data n⟩, (mem_seenRange).mpr ⟨h1, h2, rfl, rfl⟩, rfl⟩
  by_cases hwhole : startIdx = 0 ∧ endIdx = (agentSplitLines data).length
  · rw [if_pos hwhole]
    apply rememberWholeFile_traces hpath hof
    intro n h0 hn
    exact hmem n (by omega) (by omega)
  · rw [if_neg hwhole]
    have hstop : endIdx.toNat ≤ (agentSplitLines data).length := by omega
    refine hof.traces ?_ ?_
    · intro path' n hp
      rw [known_rememberRange hpath hstop, if_neg fun h => hp h.1]
    · intro n crc hk
      rw [known_rememberRange hpath hstop] at hk
      split_ifs at hk with hr
      · exact Or.inl ⟨hmem n hr.2.1 hr.2.2, hk⟩
      · refine Or.inr ⟨?_, hk⟩
        intro e he hn
        obtain ⟨h1, h2, -⟩ := (mem_seenRange).mp he
        exact hr ⟨rfl, by omega, by omega⟩

theorem agentReadRange_traced (startLine maxLines : Int) (wholeFile bare setMore : Bool) :
    (agentReadRange io st path startLine maxLines wholeFile bare setMore).Traced st.views := by
  unfold agentReadRange
  by_cases hpath : path = []
  · rw [if_pos hpath]
    exact CallOut.Traced.quiet rfl rfl rfl
  · rw [if_neg hpath]
    cases hdata : agentReadFileBytes io.files path with
    | error err => exact CallOut.Traced.quiet rfl rfl rfl
    | ok data =>
      cases bare with
      | true  => exact CallOut.Traced.quiet rfl rfl (bareOut_marks _ _ _ _)
      | false =>
        refine ⟨?_, Or.inr (appendLines_sound ((Out.Sound.nil).puts _) _ _)⟩
        simp only [Bool.false_eq_true, if_false, answer, List.nil_append, appendLines_seen, puts_seen]
        exact read_traces hpath (by omega)

theorem agentToolRead_traced (call : ToolCall) : (agentToolRead io st call).Traced st.views :=
  agentReadRange_traced ..

theorem agentToolMore_traced (call : ToolCall) : (agentToolMore io st call).Traced st.views := by
  unfold agentToolMore
  dsimp only
  split_ifs
  · exact agentReadRange_traced ..
  · exact CallOut.Traced.quiet rfl rfl rfl

theorem agentToolWrite_traced (call : ToolCall) : (agentToolWrite io st call).Traced st.views := by
  unfold agentToolWrite
  split
  · exact CallOut.Traced.quiet rfl rfl rfl
  · exact CallOut.Traced.quiet rfl rfl rfl
  · exact CallOut.Traced.quiet rfl rfl rfl
  · rename_i path content hne _ _
    dsimp only
    split
    · exact CallOut.Traced.quiet rfl rfl rfl
    · exact CallOut.Traced.quiet rfl rfl rfl
    · exact CallOut.Traced.quiet rfl rfl rfl
    · refine ⟨?_, Or.inl rfl⟩
      simp only [say_seen, List.append_nil]
      exact rememberWholeFile_traces (fun h => hne h) (ofFile_suppliedLines _ _ _)
        fun n h0 hn => mem_suppliedLines_whole h0 hn

/-! ### Searching -/

/-- A search goes on: it prints lines and remembers them. -/
def SearchSt.Goes (s s' : SearchSt) : Prop :=
  ∃ ev, s'.out.seen = s.out.seen ++ ev ∧ Traces s.views s'.views ev ∧ (s.out.Sound → s'.out.Sound)

theorem SearchSt.Goes.refl (s : SearchSt) : s.Goes s :=
  ⟨[], (List.append_nil _).symm, Traces.refl _, id⟩

theorem SearchSt.Goes.trans {s s' s'' : SearchSt} (h : s.Goes s') (h' : s'.Goes s'') : s.Goes s'' := by
  obtain ⟨ev, hev, htr, hs⟩ := h
  obtain ⟨ev', hev', htr', hs'⟩ := h'
  exact ⟨ev ++ ev', by rw [hev', hev, List.append_assoc], htr.trans htr', fun h => hs' (hs h)⟩

/-- Printing without lines. -/
theorem SearchSt.Goes.puts (s : SearchSt) (t : Bytes) : s.Goes { s with out := s.out.puts t } :=
  ⟨[], (List.append_nil _).symm, Traces.refl _, fun h => h.puts t⟩

theorem rememberLine_traces (hpath : path ≠ []) (views : Views) {n : Nat} (hn : n ≠ 0) (s : Bytes) :
    Traces views (rememberLine views path n s) [⟨path, n, s⟩] := by
  intro path' n' crc hk
  rw [known_rememberLine hpath hn] at hk
  split_ifs at hk with hr
  · left
    refine ⟨s, ?_, Option.some.inj hk⟩
    simp [lastSeen, hr.1, hr.2]
  · right
    refine ⟨lastSeen_eq_none ?_, hk⟩
    intro e he hp hl
    rcases List.mem_singleton.mp he with rfl
    exact hr ⟨hp.symm, hl.symm⟩

theorem searchLines_goes (hpath : path ≠ []) (s : SearchSt) {a : Nat} (ha : 0 < a) (b : Nat) :
    s.Goes (searchLines s path data a b) := by
  unfold searchLines
  have hpos : ∀ n ∈ List.range' a (b + 1 - a), n ≠ 0 := fun n hn => by
    have := (List.mem_range'_1.mp hn).1
    omega
  generalize List.range' a (b + 1 - a) = ns at hpos ⊢
  induction ns generalizing s with
  | nil => exact SearchSt.Goes.refl s
  | cons n ns ih =>
    rw [List.foldl_cons]
    refine SearchSt.Goes.trans ?_ (ih _ fun m hm => hpos m (List.mem_cons_of_mem n hm))
    refine ⟨[⟨path, n, lineContent data n⟩], ?_, ?_, ?_⟩
    · simp [Out.seen, Out.line]
    · exact rememberLine_traces hpath _ (hpos n List.mem_cons_self) _
    · intro h
      exact h.line (by decide) path n _

theorem searchLoop_goes (hpath : path ≠ []) (ctx : SearchCtx) (ns : List Nat) (last : Nat) (s : SearchSt) :
    s.Goes (searchLoop ctx path data ns last s).2 := by
  induction ns generalizing last s with
  | nil => exact SearchSt.Goes.refl s
  | cons n ns ih =>
    rw [searchLoop]
    split_ifs with hmax hmatch hlast
    · exact SearchSt.Goes.refl s
    · dsimp only
      refine SearchSt.Goes.trans ?_ (ih _ _)
      refine SearchSt.Goes.trans (SearchSt.Goes.puts _ path) (SearchSt.Goes.trans (SearchSt.Goes.puts _ (lit "\n")) ?_)
      exact searchLines_goes hpath _ (by omega) _
    · dsimp only
      refine SearchSt.Goes.trans ?_ (ih _ _)
      exact searchLines_goes hpath _ (by omega) _
    · exact ih last s

theorem agentSearchFile_goes (hpath : path ≠ []) (ctx : SearchCtx) (s : SearchSt) :
    s.Goes (agentSearchFile io ctx path s) := by
  unfold agentSearchFile
  split_ifs
  · exact SearchSt.Goes.refl s
  · cases hdata : agentReadFileBytes io.files path with
    | error err => exact SearchSt.Goes.refl s
    | ok data =>
      dsimp only
      split_ifs
      · exact SearchSt.Goes.refl s
      · exact searchLoop_goes hpath ctx _ 0 s
      · exact (searchLoop_goes hpath ctx _ 0 s).trans (SearchSt.Goes.puts _ _)
  · exact SearchSt.Goes.refl s

/-- The path of a directory entry. -/
theorem child_ne_nil (hpath : path ≠ []) (e : Bytes) : snprintf PATH_MAX (path ++ lit "/" ++ e) ≠ [] := by
  obtain ⟨c, s, rfl⟩ := List.exists_cons_of_ne_nil hpath
  exact List.cons_ne_nil _ _

theorem agentSearchPath_goes (ctx : SearchCtx) (depth : Nat) (path : Bytes) (hpath : path ≠ [])
    (s : SearchSt) : s.Goes (agentSearchPath io ctx depth path s) := by
  induction depth generalizing path s with
  | zero => exact SearchSt.Goes.refl s
  | succ depth ih =>
    rw [agentSearchPath]
    split_ifs
    · exact SearchSt.Goes.refl s
    · cases io.node path with
      | file  => exact agentSearchFile_goes hpath ctx s
      | other => exact SearchSt.Goes.refl s
      | dir entries =>
        dsimp only
        rename_i hres
        clear hres
        induction entries generalizing s with
        | nil => exact SearchSt.Goes.refl s
        | cons e es ihes =>
          rw [List.foldl_cons]
          refine SearchSt.Goes.trans ?_ (ihes _)
          split_ifs
          · exact SearchSt.Goes.refl s
          · exact ih _ (child_ne_nil hpath _) s

theorem withHeader_seen (hdr : Bytes) (o : Out) : (withHeader hdr o).seen = o.seen := by
  simp [Out.seen, withHeader, Mark.shift, Function.comp_def]

/-- The header of a search result moves the lines. -/
theorem withHeader_sound {hdr : Bytes} (h0 : 0 ∉ hdr) {o : Out} (h : o.Sound) : (withHeader hdr o).Sound := by
  constructor
  · intro ht m hm
    obtain ⟨m', hm', rfl⟩ := List.mem_map.mp hm
    exact (h.ins ht m' hm').shift hdr
  · intro ht hmem
    rcases List.mem_append.mp hmem with hmem | hmem
    · exact absurd hmem h0
    · obtain ⟨m, hm, hc⟩ := h.nul ht hmem
      exact ⟨m.shift hdr.length, List.mem_map.mpr ⟨m, hm, rfl⟩, hc⟩

theorem searchOut_seen (s : SearchSt) : (searchOut s).seen = s.out.seen := by
  unfold searchOut
  by_cases hptr : s.out.buf.ptr = none
  · rw [if_pos hptr, puts_seen]
  · rw [if_neg hptr, withHeader_seen]

theorem searchOut_sound {s : SearchSt} (h : s.out.Sound) : (searchOut s).Sound := by
  unfold searchOut
  by_cases hptr : s.out.buf.ptr = none
  · rw [if_pos hptr]
    exact h.puts _
  · rw [if_neg hptr]
    apply withHeader_sound _ h
    intro h0
    have h0 := List.mem_of_mem_take h0
    have h1 : (0 : UInt8) ∉ lit " match" := by decide
    have h2 : (0 : UInt8) ∉ lit " shown\n\n" := by decide
    have h3 : (0 : UInt8) ∉ if s.results = 1 then ([] : Bytes) else lit "es" := by
      split_ifs
      · exact List.not_mem_nil
      · decide
    have h4 := zero_not_mem_natText s.results
    simp only [List.mem_append] at h0
    tauto

theorem agentToolSearch_traced (call : ToolCall) : (agentToolSearch io st call).Traced st.views := by
  have hrun : ∀ (ctx : SearchCtx) (path : Bytes), path ≠ [] →
      (answer io { st with views := (agentSearchPath io ctx 25 path { views := st.views }).views }
        (searchOut (agentSearchPath io ctx 25 path { views := st.views }))).Traced st.views := by
    intro ctx path hpath
    have hgoes : SearchSt.Goes { views := st.views } (agentSearchPath io ctx 25 path { views := st.views }) :=
      agentSearchPath_goes ctx 25 path hpath _
    obtain ⟨ev, hev, htr, hs⟩ := hgoes
    refine ⟨?_, Or.inr (searchOut_sound (hs Out.Sound.nil))⟩
    have hseen : (searchOut (agentSearchPath io ctx 25 path { views := st.views })).seen = ev :=
      (searchOut_seen _).trans hev
    show Traces _ _ ([] ++ (searchOut _).seen)
    rw [hseen]
    exact htr
  unfold agentToolSearch
  split
  · exact CallOut.Traced.quiet rfl rfl rfl
  · exact CallOut.Traced.quiet rfl rfl rfl
  · dsimp only
    have hpath := searchPath_ne_nil (argValue call "path")
    split_ifs
    · split
      · exact CallOut.Traced.quiet rfl rfl rfl
      · exact hrun _ _ hpath
    · exact hrun _ _ hpath

/-! ### All calls -/

theorem agentEditLineResult_sound (views : Views) (a b r : Nat) :
    (agentEditLineResult views path a b r data).1.Sound := by
  unfold agentEditLineResult
  apply agentEditResultAppendContext_sound
  split_ifs
  · exact (say_sound _).puts _
  · exact say_sound _

theorem agentEditOldNewResult_sound (views : Views) (s e : Nat) (d : Int) :
    (agentEditOldNewResult views path s e d data).1.Sound := by
  unfold agentEditOldNewResult
  dsimp only
  by_cases hrange : 0 < s ∧ s ≤ e
  · rw [if_pos hrange]
    apply agentEditResultAppendContext_sound
    split_ifs
    · exact ((say_sound _).puts _).puts _
    · exact (say_sound _).puts _
  · rw [if_neg hrange]
    exact say_sound _

/-- Where a text was found. -/
theorem agentMemmemSimple_eq_some {hay needle : Bytes} {i : Nat} (hne : needle ≠ [])
    (h : agentMemmemSimple hay needle = some i) :
    ∃ pre post, hay = pre ++ needle ++ post ∧ pre.length = i := by
  unfold agentMemmemSimple at h
  rw [if_neg hne] at h
  have hmatch := List.find?_some (p := fun i => needle.isPrefixOf (hay.drop i)) h
  obtain ⟨post, hpost⟩ := List.isPrefixOf_iff_prefix.mp hmatch
  have hlt := List.mem_range.mp (List.mem_of_find?_eq_some h)
  refine ⟨hay.take i, post, ?_, ?_⟩
  · rw [List.append_assoc, hpost, List.take_append_drop]
  · have hpos := List.length_pos_of_ne_nil hne
    rw [List.length_take]
    omega

theorem spliced_eq (pre old post text : Bytes) :
    spliced (pre ++ old ++ post) pre.length old.length text = pre ++ text ++ post := by
  have hlen : pre.length + old.length = (pre ++ old).length := List.length_append.symm
  unfold spliced
  rw [hlen, List.drop_left, List.append_assoc pre old post, List.take_left]

theorem agentToolEditOldNew_traced (hpath : path ≠ []) (old newText : Option Bytes) :
    (agentToolEditOldNew io st path old newText).Traced st.views := by
  unfold agentToolEditOldNew
  dsimp only
  by_cases hold : old.getD [] = []
  · rw [if_pos hold]
    exact CallOut.Traced.quiet rfl rfl rfl
  · rw [if_neg hold]
    cases hdata : agentReadFileBytes io.files path with
    | error err => exact CallOut.Traced.quiet rfl rfl rfl
    | ok data =>
      dsimp only
      cases hfirst : agentMemmemSimple data (old.getD []) with
      | none => exact CallOut.Traced.quiet rfl rfl rfl
      | some first =>
        dsimp only
        split_ifs with hsecond
        · exact CallOut.Traced.quiet rfl rfl rfl
        · cases hwrite : agentWriteFileBytes io path with
          | some err => exact CallOut.Traced.quiet rfl rfl rfl
          | none =>
            dsimp only
            obtain ⟨pre, post, rfl, rfl⟩ := agentMemmemSimple_eq_some hold hfirst
            rw [spliced_eq]
            generalize heffect : agentOldNewLineEffect (pre ++ old.getD [] ++ post)
              (pre ++ newText.getD [] ++ post) pre.length (old.getD []).length = effect
            obtain ⟨s, e, d⟩ := effect
            exact ⟨agentEditOldNewResult_traces hpath hold heffect,
              Or.inr (agentEditOldNewResult_sound _ s e d)⟩

theorem agentToolEditLineRange_traced (hpath : path ≠ []) (a b : Nat) (newText : Option Bytes) :
    (agentToolEditLineRange io st path a b newText).Traced st.views := by
  unfold agentToolEditLineRange
  dsimp only
  by_cases hbad : a = 0 ∨ b = 0 ∨ b < a
  · rw [if_pos hbad]
    exact CallOut.Traced.quiet rfl rfl rfl
  · rw [if_neg hbad]
    cases hdata : agentReadFileBytes io.files path with
    | error err => exact CallOut.Traced.quiet rfl rfl rfl
    | ok data =>
      dsimp only
      cases hrange : rangeBytes data a b with
      | none => exact CallOut.Traced.quiet rfl rfl rfl
      | some r =>
        obtain ⟨lo, hi, hadNewline⟩ := r
        dsimp only
        cases hverify : verifySeenRange st.views path data a b with
        | some err => exact CallOut.Traced.quiet rfl rfl rfl
        | none =>
          dsimp only
          cases hwrite : agentWriteFileBytes io path with
          | some err => exact CallOut.Traced.quiet rfl rfl rfl
          | none =>
            dsimp only
            obtain ⟨hcount, hle, -, hlen⟩ := rangeBytes_eq (by omega) (by omega) hrange
            have htr := @agentEditLineResult_traces st.views path (data.take lo)
              (insertedText (newText.getD []) hadNewline) (data.drop (lo + (hi - lo))) a b hpath _ hcount
              (countLines_insertedText (newText.getD []) hadNewline)
            rw [hlen] at htr
            exact ⟨htr, Or.inr (agentEditLineResult_sound _ a b _)⟩

theorem agentToolEditLineAll_traced (hpath : path ≠ []) (newText : Option Bytes) :
    (agentToolEditLineAll io st path newText).Traced st.views := by
  unfold agentToolEditLineAll
  dsimp only
  cases hwrite : agentWriteFileBytes io path with
  | some err => exact CallOut.Traced.quiet rfl rfl rfl
  | none =>
    dsimp only
    refine ⟨?_, Or.inr (agentEditResultAppendContext_sound (say_sound _) _ _)⟩
    apply agentEditResultAppendContext_traces hpath rfl (ofFile_suppliedLines _ _ _)
    · intro path' n hp
      rw [known_rememberWholeFile hpath, if_neg hp]
    · intro n crc hk
      right
      rw [known_rememberWholeFile hpath, if_pos rfl] at hk
      have hn := lineAt_isSome_bounds hk
      simp only [contextOf]
      split_ifs <;> omega
    · intro e he
      obtain ⟨sp, h0, hsp, -⟩ := (mem_suppliedLines).mp he
      have hlt := (List.getElem?_eq_some_iff.mp hsp).1
      simp only [contextOf, CONTEXT_BEFORE, CONTEXT_AFTER]
      split_ifs <;> omega
    · intro n h1 h2
      simp only [contextOf] at h1 h2
      apply mem_suppliedLines_whole
      · omega
      · omega

theorem agentToolEdit_traced (call : ToolCall) : (agentToolEdit io st call).Traced st.views := by
  have hpath := @editMode_path call
  unfold agentToolEdit
  cases hmode : editMode call with
  | noPath | badRange | noText | none => exact CallOut.Traced.quiet rfl rfl rfl
  | oldNew path =>
    rw [hmode] at hpath
    exact agentToolEditOldNew_traced hpath _ _
  | all path =>
    rw [hmode] at hpath
    exact agentToolEditLineAll_traced hpath _
  | lines path a b =>
    rw [hmode] at hpath
    exact agentToolEditLineRange_traced hpath _ _ _

/-- **Calls.** -/
theorem agentExecuteToolCall_traced (call : ToolCall) : (agentExecuteToolCall io st call).Traced st.views := by
  unfold agentExecuteToolCall
  cases call.name with
  | none => exact CallOut.Traced.quiet rfl rfl rfl
  | some name =>
    dsimp only
    split_ifs
    · exact agentToolRead_traced call
    · exact agentToolMore_traced call
    · exact agentToolWrite_traced call
    · exact agentToolEdit_traced call
    · exact agentToolSearch_traced call
    · exact CallOut.Traced.quiet rfl rfl rfl

end

end DS4.Agent
