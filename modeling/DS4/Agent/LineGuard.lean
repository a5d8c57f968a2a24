import DS4.Agent.FileTrace

namespace DS4.Agent

/-!
# Agent — the guard of line edits

The calls of a block run one after another; their results go to the model together.  A line edit is accepted
when the checksums of its lines are those that are remembered.

* `Round`, `runCalls`, `combine` — the calls of a block, and the text that the model gets for them.
* `Round.events` — what the model supplied and was shown by a block.
* `Whole` — nothing of the text of a block is lost on its way to the model.
* `Guarded` — every line edit of a run is of lines that the model was shown or supplied.
-/

open DS4.Tokenizer DS4.Lib

/-! ### Blocks -/

/-- A call, and the world when it runs. -/
structure CallIn where
  call : ToolCall
  io   : Io

/-- A block of calls, and the message that takes the place of their result when it does not fit into the
    context. -/
structure Round where
  calls    : List CallIn
  replaced : Option Bytes

/-- The calls of a block. -/
def runCalls : ToolState → List CallIn → List CallOut
  | _, []       => []
  | st, c :: cs =>
    let r := agentExecuteToolCall c.io st c.call
    r :: runCalls r.state cs

/-- The state behind calls. -/
def stateAfter (st : ToolState) (cs : List CallIn) : ToolState :=
  cs.foldl (fun st c => (agentExecuteToolCall c.io st c.call).state) st

/-- The text of `agent_execute_tool_calls` so far, and the lines of files that each call has printed into
    it. -/
structure Combined where
  buf   : AgentBuf := {}
  marks : List (List Mark) := []

/-- The header of a result. -/
def resultHeader (i : Nat) (call : ToolCall) : Bytes :=
  snprintf 128 (lit "Tool result " ++ natText (i + 1) ++ lit " (" ++ call.name.getD (lit "unknown") ++
    lit "):\n")

/-- The result of a call. -/
def Combined.add (all : Combined) (call : ToolCall) (out : Out) : Combined :=
  let buf := all.buf.puts (resultHeader all.marks.length call)
  let marks := out.shown.map (Mark.shift buf.bytes.length)
  let buf := buf.puts out.text
  let buf := if out.text ≠ [] ∧ out.text.getLast? ≠ some 0x0a then buf.puts (lit "\n") else buf
  { buf, marks := all.marks ++ [marks] }

/-- The results of calls. -/
def Combined.addAll (all : Combined) (cs : List (CallIn × CallOut)) : Combined :=
  cs.foldl (fun all c => all.add c.1.call c.2.out) all

/-- `agent_execute_tool_calls` -/
def combine (cs : List CallIn) (outs : List CallOut) : Combined :=
  let all := ({} : Combined).addAll (cs.zip outs)
  if cs = [] then { all with buf := all.buf.puts (lit "Tool error: empty tool call block\n") } else all

/-- The lines that the model gets to see, for each call. -/
def Round.shown (r : Round) (all : Combined) : List (List Mark) :=
  match r.replaced with
  | none   => all.marks.map fun ms => ms.filter fun m => m.In (cstr all.buf.take)
  | some _ => all.marks.map fun _ => []

/-- What the model supplied and was shown, for each call of a block. -/
def Round.events (st : ToolState) (r : Round) : List (List Seen) :=
  let outs := runCalls st r.calls
  List.zipWith (fun out ms => out.supplied ++ ms.map Mark.toSeen) outs (r.shown (combine r.calls outs))

/-- Nothing of the results of a block is cut: no printed line has a NUL byte, no buffer takes more than it
    has room for, and the result fits into the context. -/
def Whole (st : ToolState) (r : Round) : Prop :=
  (∀ out ∈ runCalls st r.calls, out.out.buf.truncated = false ∧ ∀ m ∈ out.out.marks, 0 ∉ m.content) ∧
    (combine r.calls (runCalls st r.calls)).buf.truncated = false ∧ r.replaced = none

instance (st : ToolState) (r : Round) : Decidable (Whole st r) := inferInstanceAs (Decidable (_ ∧ _ ∧ _))

/-! ### Line edits -/

/-- The range of a line edit. -/
def lineEdit (call : ToolCall) : Option (Bytes × Nat × Nat) :=
  if call.name = some (lit "edit") then
    match editMode call with
    | .lines path a b => some (path, a, b)
    | _               => none
  else none

/-- Each line of the range has the checksum of what was shown or supplied last for it: before the block, or
    by an earlier call of it, and before the block when no earlier call shows or supplies lines of the
    file. -/
def SeenLines (before own : List Seen) (files : Files) (path : Bytes) (a b : Nat) : Prop :=
  ∃ data, agentReadFileBytes files path = .ok data ∧ ∀ n, a ≤ n → n ≤ b →
    ∃ seen current, lastSeen (before ++ own) path n = some seen ∧ lineAt data n = some current ∧
      agentLineCrc current = agentLineCrc seen ∧
      ((∀ e ∈ own, e.path ≠ path) → lastSeen before path n = some seen)

/-- A call has the result of an edit. -/
def Succeeds (r : CallOut) : Prop := lit "Edited " <+: r.out.text

/-- A call says that there is an error, and leaves the files as they are. -/
def Rejected (io : Io) (r : CallOut) : Prop := lit "Tool error: " <+: r.out.text ∧ r.files = io.files

/-- A line edit that succeeds has seen its lines; one that has not is rejected. -/
def CallGuarded (before own : List Seen) (st : ToolState) (c : CallIn) : Prop :=
  ∀ path a b, lineEdit c.call = some (path, a, b) →
    (Succeeds (agentExecuteToolCall c.io st c.call) → SeenLines before own c.io.files path a b) ∧
    (¬ SeenLines before own c.io.files path a b → Rejected c.io (agentExecuteToolCall c.io st c.call))

/-- The line edits of a block. -/
def RoundGuarded (st : ToolState) (before : List Seen) (r : Round) : Prop :=
  ∀ i c, r.calls[i]? = some c →
    CallGuarded before ((r.events st).take i).flatten (stateAfter st (r.calls.take i)) c

/-- The line edits of a run of blocks. -/
def Guarded : ToolState → List Seen → List Round → Prop
  | _, _, []            => True
  | st, before, r :: rs =>
    RoundGuarded st before r ∧ Guarded (stateAfter st r.calls) (before ++ (r.events st).flatten) rs

/-- Nothing is cut in any block of a run. -/
def AllWhole : ToolState → List Round → Prop
  | _, []       => True
  | st, r :: rs => Whole st r ∧ AllWhole (stateAfter st r.calls) rs

instance AllWhole.decide : (st : ToolState) → (rs : List Round) → Decidable (AllWhole st rs)
  | _, []       => isTrue trivial
  | st, r :: rs =>
    have := AllWhole.decide (stateAfter st r.calls) rs
    inferInstanceAs (Decidable (Whole st r ∧ AllWhole _ rs))

/-! ### Texts -/

theorem prefix_cstr {x s : Bytes} (h : x <+: s) (h0 : 0 ∉ x) : x <+: cstr s := by
  obtain ⟨t, rfl⟩ := h
  have hx : ∀ c ∈ x, decide (c ≠ 0) = true := fun c hc => decide_eq_true fun h => h0 (h ▸ hc)
  unfold cstr
  rw [List.takeWhile_append_of_pos hx]
  exact List.prefix_append ..

theorem toolError_starts (err : Bytes) : lit "Tool error: " <+: (toolError err).text := by
  apply prefix_cstr _ (by decide)
  have hsay : (say (lit "Tool error: ")).buf.bytes = lit "Tool error: " := by decide
  have h1 := AgentBuf.bytes_prefix_append (say (lit "Tool error: ")).buf (cstr err)
  have h2 := AgentBuf.bytes_prefix_append ((say (lit "Tool error: ")).puts err).buf (cstr (lit "\n"))
  rw [hsay] at h1
  exact h1.trans h2

theorem badRange_starts : lit "Tool error: " <+: (say (lit "Tool error: invalid edit line range\n")).text := by
  decide

theorem outside_starts :
    lit "Tool error: " <+: (say (lit "Tool error: edit line range is outside the file\n")).text := by
  decide

/-- An error is no success. -/
theorem Rejected.not_succeeds {io : Io} {r : CallOut} (h : Rejected io r) : ¬ Succeeds r := by
  intro hs
  obtain ⟨t, ht⟩ := h.1
  obtain ⟨t', ht'⟩ := hs
  have heq := ht.trans ht'.symm
  have hhead : some (0x54 : UInt8) = some 0x45 := congrArg List.head? heq
  exact absurd hhead (by decide)

/-! ### The check of a line edit -/

section
variable {io : Io} {st : ToolState} {path data : Bytes} {a b : Nat}

theorem verifySeenRange_eq_none {views : Views} (h : verifySeenRange views path data a b = none) {n : Nat}
    (ha : a ≤ n) (hb : n ≤ b) : known views path n = some (agentLineCrc (lineContent data n)) := by
  unfold verifySeenRange at h
  cases hv : views path with
  | none =>
    rw [hv] at h
    exact absurd h (by simp)
  | some v =>
    rw [hv] at h
    have hn := List.findSome?_eq_none_iff.mp h n (List.mem_range'_1.mpr ⟨ha, by omega⟩)
    cases hk : known views path n with
    | none =>
      rw [hk] at hn
      exact absurd hn (by simp)
    | some crc =>
      rw [hk] at hn
      dsimp only at hn
      split_ifs at hn with hcrc
      rw [hcrc]

/-- A line edit goes through when its lines have the checksums remembered, and is rejected otherwise. -/
theorem agentToolEditLineRange_guard (st : ToolState) (newText : Option Bytes) :
    (∃ data, agentReadFileBytes io.files path = .ok data ∧ ∀ n, a ≤ n → n ≤ b →
      lineAt data n = some (lineContent data n) ∧
        known st.views path n = some (agentLineCrc (lineContent data n))) ∨
    Rejected io (agentToolEditLineRange io st path a b newText) := by
  unfold agentToolEditLineRange
  dsimp only
  by_cases hbad : a = 0 ∨ b = 0 ∨ b < a
  · rw [if_pos hbad]
    exact Or.inr ⟨badRange_starts, rfl⟩
  · rw [if_neg hbad]
    cases hdata : agentReadFileBytes io.files path with
    | error err => exact Or.inr ⟨toolError_starts err, rfl⟩
    | ok data =>
      dsimp only
      cases hrange : rangeBytes data a b with
      | none => exact Or.inr ⟨outside_starts, rfl⟩
      | some r =>
        obtain ⟨lo, hi, hadNewline⟩ := r
        dsimp only
        cases hverify : verifySeenRange st.views path data a b with
        | some err => exact Or.inr ⟨toolError_starts err, rfl⟩
        | none =>
          refine Or.inl ⟨data, rfl, fun n ha hb => ⟨?_, verifySeenRange_eq_none hverify ha hb⟩⟩
          obtain ⟨s, -, h⟩ := Option.bind_eq_some_iff.mp hrange
          obtain ⟨e, he, -⟩ := Option.map_eq_some_iff.mp h
          have hlt := (List.getElem?_eq_some_iff.mp he).1
          exact lineAt_eq_some (by omega) (by omega)

/-- The checksums are those of lines that were shown or supplied. -/
theorem callGuarded {before own : List Seen} (htr : Traces (fun _ => none) st.views (before ++ own))
    (call : ToolCall) : CallGuarded before own st ⟨call, io⟩ := by
  intro path a b hedit
  have hname : call.name = some (lit "edit") := by
    unfold lineEdit at hedit
    split_ifs at hedit with h
    exact h
  have hmode : editMode call = .lines path a b := by
    unfold lineEdit at hedit
    rw [if_pos hname] at hedit
    cases hm : editMode call <;> simp [hm] at hedit
    obtain ⟨rfl, rfl, rfl⟩ := hedit
    rfl
  have hexec : agentExecuteToolCall io st call =
      agentToolEditLineRange io st path a b (argValue call "new") := by
    unfold agentExecuteToolCall agentToolEdit
    rw [hname]
    dsimp only
    rw [if_neg (by decide), if_neg (by decide), if_neg (by decide), if_pos rfl, hmode]
  have key : SeenLines before own io.files path a b ∨ Rejected io (agentExecuteToolCall io st call) := by
    rw [hexec]
    have hguard : (∃ data, agentReadFileBytes io.files path = .ok data ∧ ∀ n, a ≤ n → n ≤ b →
        lineAt data n = some (lineContent data n) ∧
          known st.views path n = some (agentLineCrc (lineContent data n))) ∨
        Rejected io (agentToolEditLineRange io st path a b (argValue call "new")) :=
      agentToolEditLineRange_guard st (argValue call "new")
    rcases hguard with ⟨data, hdata, hlines⟩ | hrej
    · refine Or.inl ⟨data, hdata, fun n ha hb => ?_⟩
      obtain ⟨hat, hk⟩ := hlines n ha hb
      rcases htr path n _ hk with ⟨c, hc, hcrc⟩ | ⟨-, hk⟩
      · refine ⟨c, _, hc, hat, hcrc.symm, fun hown => ?_⟩
        rw [lastSeen_append, lastSeen_eq_none fun e he hp => absurd hp (hown e he)] at hc
        exact hc
      · -- nothing is remembered at first
        unfold known at hk
        split_ifs at hk
        simp at hk
    · exact Or.inr hrej
  refine ⟨fun hs => ?_, fun hns => ?_⟩
  · exact key.resolve_right fun hrej => hrej.not_succeeds hs
  · exact key.resolve_left hns

end

/-! ### What a block shows -/

/-- The results that are put together so far hold the lines that they should, when nothing was cut. -/
def Combined.Sound (all : Combined) : Prop :=
  all.buf.truncated = false →
    (0 ∉ all.buf.bytes) ∧ ∀ ms ∈ all.marks, ∀ m ∈ ms, m.In all.buf.bytes

theorem Combined.add_truncated {all : Combined} {call : ToolCall} {out : Out}
    (h : (all.add call out).buf.truncated = false) : all.buf.truncated = false := by
  unfold Combined.add at h
  dsimp only at h
  split_ifs at h
  · exact (AgentBuf.puts_bytes (AgentBuf.puts_bytes (AgentBuf.puts_bytes h).1).1).1
  · exact (AgentBuf.puts_bytes (AgentBuf.puts_bytes h).1).1

theorem cstr_text (o : Out) : cstr o.text = o.text := cstr_eq_self (zero_not_mem_cstr _)

theorem Combined.Sound.add {all : Combined} (h : all.Sound) (call : ToolCall) (out : Out) :
    (all.add call out).Sound := by
  intro ht
  obtain ⟨h0, hin⟩ := h (Combined.add_truncated ht)
  -- what stands behind the header and the result
  obtain ⟨x, hx0, hbytes⟩ : ∃ x : Bytes, 0 ∉ x ∧ (all.add call out).buf.bytes =
      (all.buf.puts (resultHeader all.marks.length call)).bytes ++ out.text ++ x := by
    unfold Combined.add at ht ⊢
    dsimp only at ht ⊢
    split_ifs at ht ⊢ with hnl
    · obtain ⟨h1, hb1⟩ := AgentBuf.puts_bytes ht
      obtain ⟨h2, hb2⟩ := AgentBuf.puts_bytes h1
      exact ⟨cstr (lit "\n"), by decide, by rw [hb1, hb2, cstr_text]⟩
    · obtain ⟨h1, hb1⟩ := AgentBuf.puts_bytes ht
      exact ⟨[], List.not_mem_nil, by rw [hb1, cstr_text, List.append_nil]⟩
  have hhdr : (all.buf.puts (resultHeader all.marks.length call)).bytes =
      all.buf.bytes ++ cstr (resultHeader all.marks.length call) := by
    have ht' : (all.buf.puts (resultHeader all.marks.length call)).truncated = false := by
      unfold Combined.add at ht
      dsimp only at ht
      split_ifs at ht
      · exact (AgentBuf.puts_bytes (AgentBuf.puts_bytes ht).1).1
      · exact (AgentBuf.puts_bytes ht).1
    exact (AgentBuf.puts_bytes ht').2
  constructor
  · rw [hbytes, hhdr]
    simp only [List.mem_append, not_or]
    exact ⟨⟨⟨h0, zero_not_mem_cstr _⟩, zero_not_mem_cstr _⟩, hx0⟩
  · intro ms hms m hm
    rw [hbytes]
    rcases List.mem_append.mp hms with hms | hms
    · rw [hhdr, List.append_assoc, List.append_assoc]
      exact (hin ms hms m hm).append _
    · rcases List.mem_singleton.mp hms with rfl
      obtain ⟨m', hm', rfl⟩ := List.mem_map.mp hm
      have hmin : m'.In out.text := of_decide_eq_true (List.mem_filter.mp hm').2
      exact (hmin.shift _).append x

theorem Combined.Sound.addAll {all : Combined} (h : all.Sound) (cs : List (CallIn × CallOut)) :
    (all.addAll cs).Sound ∧ (all.addAll cs).marks.map (List.map Mark.toSeen) =
      all.marks.map (List.map Mark.toSeen) ++ cs.map fun c => c.2.out.shown.map Mark.toSeen := by
  induction cs generalizing all with
  | nil => exact ⟨h, (List.append_nil _).symm⟩
  | cons c cs ih =>
    obtain ⟨hs, hmarks⟩ := ih (h.add c.1.call c.2.out)
    refine ⟨hs, ?_⟩
    show ((all.add c.1.call c.2.out).addAll cs).marks.map _ = _
    rw [hmarks]
    simp [Combined.add, Mark.shift, Function.comp_def]

theorem length_runCalls (st : ToolState) (cs : List CallIn) : (runCalls st cs).length = cs.length := by
  induction cs generalizing st with
  | nil          => rfl
  | cons c cs ih => rw [runCalls, List.length_cons, List.length_cons, ih]

theorem map_zip_snd {β : Type} (st : ToolState) (cs : List CallIn) (f : CallOut → β) :
    (cs.zip (runCalls st cs)).map (fun c => f c.2) = (runCalls st cs).map f := by
  have hsnd : (cs.zip (runCalls st cs)).map Prod.snd = runCalls st cs := by
    rw [List.map_snd_zip]
    exact Nat.le_of_eq (length_runCalls st cs)
  calc (cs.zip (runCalls st cs)).map (fun c => f c.2)
      = ((cs.zip (runCalls st cs)).map Prod.snd).map f := by rw [List.map_map]; rfl
    _ = (runCalls st cs).map f := by rw [hsnd]

/-- The calls of a block are calls. -/
theorem traced_of_mem {st : ToolState} {cs : List CallIn} {out : CallOut} (h : out ∈ runCalls st cs) :
    out.out.marks = [] ∨ out.out.Sound := by
  induction cs generalizing st with
  | nil => exact absurd h List.not_mem_nil
  | cons c cs ih =>
    rcases List.mem_cons.mp h with rfl | h
    · exact (agentExecuteToolCall_traced c.call).sound
    · exact ih h

/-- **Blocks.**  When nothing is cut, the model sees what the calls print. -/
theorem Whole.events_eq {st : ToolState} {r : Round} (h : Whole st r) :
    r.events st = (runCalls st r.calls).map fun out => out.supplied ++ out.out.seen := by
  obtain ⟨houts, hall, hkept⟩ := h
  have hshown : ∀ out ∈ runCalls st r.calls, out.out.shown = out.out.marks := by
    intro out hout
    rcases traced_of_mem hout with hnil | hs
    · rw [Out.shown, hnil]
      rfl
    · exact hs.shown_eq (houts out hout).1 (houts out hout).2
  have hfirst : ({} : Combined).Sound := fun _ => ⟨List.not_mem_nil, fun ms hms => absurd hms List.not_mem_nil⟩
  obtain ⟨hsound, hmarks⟩ := hfirst.addAll (r.calls.zip (runCalls st r.calls))
  generalize hfold : ({} : Combined).addAll (r.calls.zip (runCalls st r.calls)) = all at hsound hmarks
  have hmarks : all.marks.map (List.map Mark.toSeen) =
      (runCalls st r.calls).map fun out => out.out.seen := by
    rw [hmarks, List.map_nil, List.nil_append, map_zip_snd st r.calls fun out => out.out.shown.map Mark.toSeen]
    apply List.map_congr_left
    intro out hout
    rw [hshown out hout]
    rfl
  have hkeep : r.shown (combine r.calls (runCalls st r.calls)) = all.marks := by
    unfold Round.shown combine at *
    rw [hkept]
    dsimp only at hall ⊢
    rw [hfold] at hall ⊢
    split_ifs at hall ⊢ with hempty
    · -- there are no calls
      rw [hempty] at hfold
      obtain rfl : ({} : Combined) = all := hfold
      rfl
    · obtain ⟨h0, hin⟩ := hsound hall
      have htext : cstr all.buf.take = all.buf.bytes := cstr_eq_self h0
      rw [htext]
      have hid : ∀ ms ∈ all.marks, (ms.filter fun m => decide (m.In all.buf.bytes)) = ms := by
        intro ms hms
        rw [List.filter_eq_self]
        exact fun m hm => decide_eq_true (hin ms hms m hm)
      rw [List.map_congr_left hid, List.map_id']
  unfold Round.events
  dsimp only
  rw [hkeep, ← List.zipWith_map_right, hmarks, List.zipWith_map_right, List.zipWith_self]

/-! ### Runs -/

/-- Calls, one after another. -/
theorem runCalls_traces {v₀ : Views} (cs : List CallIn) {st : ToolState} {before : List Seen}
    (h : Traces v₀ st.views before) :
    Traces v₀ (stateAfter st cs).views
      (before ++ ((runCalls st cs).map fun out => out.supplied ++ out.out.seen).flatten) := by
  induction cs generalizing st before with
  | nil =>
    rw [runCalls, List.map_nil, List.flatten_nil, List.append_nil]
    exact h
  | cons c cs ih =>
    have hcall : (agentExecuteToolCall c.io st c.call).Traced st.views := agentExecuteToolCall_traced c.call
    have hc := h.trans hcall.traces
    have hcs := ih hc
    rw [runCalls, List.map_cons, List.flatten_cons, ← List.append_assoc]
    exact hcs

theorem runCalls_take (st : ToolState) (cs : List CallIn) (i : Nat) :
    runCalls st (cs.take i) = (runCalls st cs).take i := by
  induction cs generalizing st i with
  | nil => simp [runCalls]
  | cons c cs ih =>
    cases i with
    | zero   => rfl
    | succ i =>
      rw [List.take_succ_cons, runCalls, runCalls, List.take_succ_cons]
      exact congrArg _ (ih _ i)

/-- **Blocks.**  The line edits of a block of which nothing is cut. -/
theorem Whole.roundGuarded {st : ToolState} {r : Round} (h : Whole st r) {before : List Seen}
    (htr : Traces (fun _ => none) st.views before) : RoundGuarded st before r := by
  intro i c _
  have hown := runCalls_traces (r.calls.take i) htr
  rw [runCalls_take, List.map_take, ← h.events_eq] at hown
  exact callGuarded hown c.call

/-- What is remembered behind a block of which nothing is cut. -/
theorem Whole.traces {st : ToolState} {r : Round} (h : Whole st r) {before : List Seen}
    (htr : Traces (fun _ => none) st.views before) :
    Traces (fun _ => none) (stateAfter st r.calls).views (before ++ (r.events st).flatten) := by
  rw [h.events_eq]
  exact runCalls_traces r.calls htr

theorem AllWhole.guarded {rs : List Round} {st : ToolState} (h : AllWhole st rs) {before : List Seen}
    (htr : Traces (fun _ => none) st.views before) : Guarded st before rs := by
  induction rs generalizing st before with
  | nil          => trivial
  | cons r rs ih => exact ⟨h.1.roundGuarded htr, ih h.2 (h.1.traces htr)⟩

/-- A world with one content for all files. -/
def sampleIo (content : Bytes) : Io where
  files   := fun _ => .data content
  write   := fun _ => .ok
  node    := fun _ => .other
  fnmatch := fun _ _ => false
  regcomp := fun _ _ => .error []
  other   := []

/-- A file is read. -/
def sampleRead (content : Bytes) : CallIn :=
  ⟨⟨some (lit "read"), [(lit "path", lit "f")]⟩, sampleIo content⟩

/-- Its second line is edited. -/
def sampleEdit (content : Bytes) : CallIn :=
  ⟨⟨some (lit "edit"), [(lit "path", lit "f"), (lit "line", lit "2"), (lit "new", lit "x")]⟩,
    sampleIo content⟩

def sampleRounds (content : Bytes) : List Round :=
  [⟨[sampleRead content], none⟩, ⟨[sampleEdit content], none⟩]

/-- The first line has a NUL byte, which hides the second one. -/
def nulFile : Bytes := [0x61, 0, 0x0a, 0x62, 0x0a]

end DS4.Agent
