import Mathlib.Logic.Function.Basic
import DS4.Agent.Transcript
import DS4.Lib.Lines

namespace DS4.Agent

/-!
# Agent — the remembered lines of files

For each path the agent keeps a checksum of every line that it believes the model to know, by number.  Line
edits are checked against these.

* `agentCrc32Bytes` — the checksum.
* `Views`, `known` — what is remembered, and the checksum of one line.
* `rememberLine`, `rememberRange`, `rememberWholeFile` — remembering lines of a file.
* `updateViewAfterEdit`, `updateViewAfterOldNew` — forgetting lines behind an edit.
* `verifySeenRange` — the check before a line edit.
* `Seen`, `lastSeen` — what was shown or supplied; `Traces` says that the remembered checksums are those of
  what was last shown or supplied.
-/

open DS4.Tokenizer DS4.Lib

/-! ### Checksums -/

/-- A bit of `agent_crc32_bytes`. -/
def crcBit (crc : BitVec 32) : BitVec 32 := (crc >>> 1) ^^^ (0xedb88320#32 &&& (0#32 - (crc &&& 1#32)))

/-- A byte of `agent_crc32_bytes`. -/
def crcByte (crc : BitVec 32) (c : UInt8) : BitVec 32 := Nat.repeat crcBit 8 (crc ^^^ c.toBitVec.setWidth 32)

/-- `agent_crc32_bytes` -/
def agentCrc32Bytes (s : Bytes) : BitVec 32 := s.foldl crcByte 0xffffffff#32 ^^^ 0xffffffff#32

/-- `agent_line_crc` -/
def agentLineCrc (s : Bytes) : BitVec 32 := agentCrc32Bytes s

/-- `agent_split_lines` -/
def agentSplitLines (data : Bytes) : List LineSpan := lines data

/-! ### Views -/

/-- `agent_line_view`: the checksum of a line that is known. -/
abbrev LineView := Option (BitVec 32)

/-- The views of the files, by path. -/
abbrev Views := Bytes → Option (List LineView)

/-- The checksum remembered for a line. -/
def known (views : Views) (path : Bytes) (n : Nat) : LineView :=
  if n = 0 then none else (((views path).getD [])[n - 1]?).join

/-- `agent_file_view_resize` -/
def viewResize (v : List LineView) (n : Nat) : List LineView := v.take n ++ List.replicate (n - v.length) none

/-- `agent_worker_forget_file_view` -/
def forgetFileView (views : Views) (path : Bytes) : Views := Function.update views path none

/-- `agent_worker_remember_line` -/
def rememberLine (views : Views) (path : Bytes) (line : Nat) (s : Bytes) : Views :=
  if line = 0 ∨ path = [] then views
  else
    let v := (views path).getD []
    let v := if v.length < line then viewResize v line else v
    Function.update views path (some (v.set (line - 1) (some (agentLineCrc s))))

/-- The checksum of a line by its index. -/
def crcAt (data : Bytes) (i : Nat) : LineView :=
  ((agentSplitLines data)[i]?).map fun sp => agentLineCrc (sp.content data)

/-- The lines `start ≤ i < stop` of a file take their checksums. -/
def setLines (v : List LineView) (data : Bytes) (start stop : Nat) : List LineView :=
  v.mapIdx fun i l => if start ≤ i ∧ i < stop then crcAt data i else l

/-- `agent_worker_remember_range` -/
def rememberRange (views : Views) (path data : Bytes) (start stop : Nat) : Views :=
  if path = [] then views
  else
    let v := (views path).getD []
    let total := (agentSplitLines data).length
    let v := if v.length < total then viewResize v total else v
    Function.update views path (some (setLines v data start stop))

/-- `agent_worker_remember_whole_file` -/
def rememberWholeFile (views : Views) (path data : Bytes) : Views :=
  if path = [] then views
  else
    let total := (agentSplitLines data).length
    let v := viewResize ((views path).getD []) total
    Function.update views path (some (setLines v data 0 total))

/-- `agent_worker_update_view_after_edit` -/
def updateViewAfterEdit (views : Views) (path newData : Bytes) (startLine endLine replacementLines : Nat) :
    Views :=
  if path = [] then views
  else
    let old := (views path).getD []
    let newTotal := (agentSplitLines newData).length
    let replacedLines := endLine - startLine + 1
    let replEnd := startLine + replacementLines - 1
    let view (i : Nat) : LineView :=
      -- with the same number of lines, those behind the range keep their numbers
      if replacementLines = replacedLines ∧ endLine ≤ i then old[i]?.join
      else if startLine - 1 ≤ i ∧ i < replEnd then crcAt newData i
      else if i < startLine - 1 then old[i]?.join
      else none
    Function.update views path (some ((List.range newTotal).map view))

/-- `agent_line_for_offset` -/
def agentLineForOffset (spans : List LineSpan) (offset : Nat) : Nat :=
  if spans = [] then 1 else min (spans.findIdx (fun sp => offset < sp.stop) + 1) spans.length

/-- The last byte that an edit replaced. -/
def oldLast (oldData : Bytes) (editOffset replacedLen : Nat) : Nat :=
  min (editOffset + replacedLen - 1) (oldData.length - 1)

/-- `agent_worker_update_view_after_old_new` -/
def updateViewAfterOldNew (views : Views) (path oldData newData : Bytes) (editOffset replacedLen : Nat) :
    Views :=
  match views path with
  | none     => views
  | some old =>
    let oldSpans := agentSplitLines oldData
    if oldSpans = [] then forgetFileView views path
    else
      let startLine := agentLineForOffset oldSpans editOffset
      let endLine := agentLineForOffset oldSpans (oldLast oldData editOffset replacedLen)
      let newTotal := (agentSplitLines newData).length
      let view (i : Nat) : LineView :=
        if newTotal = oldSpans.length ∧ endLine ≤ i then old[i]?.join
        else if i < startLine - 1 then old[i]?.join
        else none
      Function.update views path (some ((List.range newTotal).map view))

/-! ### What the operations remember -/

section
variable {views : Views} {path path' data : Bytes} {n : Nat}

theorem known_update (v : List LineView) (path' : Bytes) (n : Nat) :
    known (Function.update views path (some v)) path' n =
      if path' = path then (if n = 0 then none else (v[n - 1]?).join) else known views path' n := by
  unfold known
  by_cases h : path' = path
  · subst h
    simp
  · simp [h]

theorem join_viewResize (v : List LineView) {i total : Nat} (h : i < total) :
    ((viewResize v total)[i]?).join = (v[i]?).join := by
  unfold viewResize
  by_cases hi : i < v.length
  · have hlen : i < (v.take total).length := by
      rw [List.length_take]
      omega
    rw [List.getElem?_append_left hlen, List.getElem?_take_of_lt h]
  · have hv : v[i]? = none := List.getElem?_eq_none (Nat.le_of_not_lt hi)
    have hlen : (v.take total).length ≤ i := by
      rw [List.length_take]
      omega
    rw [hv, List.getElem?_append_right hlen, List.getElem?_replicate]
    split_ifs <;> rfl

@[simp] theorem length_viewResize (v : List LineView) (total : Nat) : (viewResize v total).length = total := by
  unfold viewResize
  rw [List.length_append, List.length_take, List.length_replicate]
  omega

/-- Growing a view remembers nothing. -/
theorem join_grow (v : List LineView) (total i : Nat) :
    (((if v.length < total then viewResize v total else v)[i]?).join) = (v[i]?).join := by
  split_ifs with hlt
  · by_cases hi : i < total
    · exact join_viewResize v hi
    · have h1 : (viewResize v total)[i]? = none := List.getElem?_eq_none (by simpa using hi)
      have h2 : v[i]? = none := List.getElem?_eq_none (by omega)
      rw [h1, h2]
  · rfl

theorem length_grow (v : List LineView) (total : Nat) :
    total ≤ (if v.length < total then viewResize v total else v).length := by
  split_ifs with hlt
  · rw [length_viewResize]
  · exact Nat.le_of_not_lt hlt

theorem getElem?_setLines (v : List LineView) (data : Bytes) (start stop i : Nat) :
    (setLines v data start stop)[i]?.join =
      if i < v.length ∧ start ≤ i ∧ i < stop then crcAt data i else (v[i]?).join := by
  unfold setLines
  rw [List.getElem?_mapIdx]
  by_cases hi : i < v.length
  · rw [List.getElem?_eq_getElem hi]
    by_cases h : start ≤ i ∧ i < stop <;> simp [h, hi]
  · have hv : v[i]? = none := List.getElem?_eq_none (Nat.le_of_not_lt hi)
    rw [hv, if_neg fun h => hi h.1]
    rfl

theorem crcAt_eq (data : Bytes) {n : Nat} (h : n ≠ 0) :
    crcAt data (n - 1) = (lineAt data n).map agentLineCrc := by
  rw [lineAt, if_neg h, Option.map_map]
  rfl

/-- Remembering a range of lines. -/
theorem known_rememberRange (hpath : path ≠ []) {start stop : Nat}
    (hstop : stop ≤ (agentSplitLines data).length) (path' : Bytes) (n : Nat) :
    known (rememberRange views path data start stop) path' n =
      if path' = path ∧ start < n ∧ n ≤ stop then (lineAt data n).map agentLineCrc
      else known views path' n := by
  unfold rememberRange
  rw [if_neg hpath, known_update]
  by_cases h : path' = path
  · subst h
    by_cases hn : n = 0
    · simp [hn, known]
    · have hlen := length_grow ((views path').getD []) (agentSplitLines data).length
      rw [if_pos rfl, if_neg hn, getElem?_setLines, join_grow, crcAt_eq data hn]
      have hold : known views path' n = (((views path').getD [])[n - 1]?).join := by rw [known, if_neg hn]
      rw [hold]
      by_cases hr : start < n ∧ n ≤ stop
      · rw [if_pos ⟨by omega, by omega, by omega⟩, if_pos ⟨rfl, hr⟩]
      · rw [if_neg (by omega), if_neg fun h => hr h.2]
  · rw [if_neg h, if_neg fun h' => h h'.1]

/-- Remembering a whole file. -/
theorem known_rememberWholeFile (hpath : path ≠ []) (path' : Bytes) (n : Nat) :
    known (rememberWholeFile views path data) path' n =
      if path' = path then (lineAt data n).map agentLineCrc else known views path' n := by
  unfold rememberWholeFile
  rw [if_neg hpath, known_update]
  by_cases h : path' = path
  · subst h
    rw [if_pos rfl, if_pos rfl]
    by_cases hn : n = 0
    · simp [hn, lineAt]
    · rw [if_neg hn, getElem?_setLines, length_viewResize, ← crcAt_eq data hn]
      split_ifs with hr
      · rfl
      · have h1 : (viewResize ((views path').getD []) (agentSplitLines data).length)[n - 1]? = none :=
          List.getElem?_eq_none (by simpa using hr)
        have h2 : (agentSplitLines data)[n - 1]? = none := List.getElem?_eq_none (by simpa using hr)
        rw [h1, crcAt, h2]
        rfl
  · rw [if_neg h, if_neg h]

/-- Remembering one line. -/
theorem known_rememberLine (hpath : path ≠ []) {line : Nat} (hline : line ≠ 0) (s path' : Bytes) (n : Nat) :
    known (rememberLine views path line s) path' n =
      if path' = path ∧ n = line then some (agentLineCrc s) else known views path' n := by
  unfold rememberLine
  rw [if_neg (by simp [hline, hpath]), known_update]
  by_cases h : path' = path
  · subst h
    by_cases hn : n = 0
    · have hne : ¬ (path' = path' ∧ n = line) := fun h => hline (h.2.symm.trans hn)
      rw [if_pos rfl, if_pos hn, if_neg hne, known, if_pos hn]
    · have hlen := length_grow ((views path').getD []) line
      rw [if_pos rfl, if_neg hn, List.getElem?_set]
      have hold : known views path' n = (((views path').getD [])[n - 1]?).join := by rw [known, if_neg hn]
      by_cases hr : n = line
      · rw [if_pos (by rw [hr]), if_pos (by omega), if_pos ⟨rfl, hr⟩]
        rfl
      · have hne : ¬ line - 1 = n - 1 := by omega
        have hne' : ¬ (path' = path' ∧ n = line) := fun h => hr h.2
        rw [if_neg hne, if_neg hne', join_grow, hold]
  · rw [if_neg h, if_neg fun h' => h h'.1]

theorem known_map_range (view : Nat → LineView) (total : Nat) (path' : Bytes) (n : Nat) :
    known (Function.update views path (some ((List.range total).map view))) path' n =
      if path' = path then (if n ≠ 0 ∧ n ≤ total then view (n - 1) else none) else known views path' n := by
  rw [known_update]
  congr 1
  by_cases hn : n = 0
  · rw [if_pos hn, if_neg fun h => h.1 hn]
  · rw [if_neg hn, List.getElem?_map]
    by_cases hle : n ≤ total
    · rw [List.getElem?_range (by omega), if_pos ⟨hn, hle⟩]
      rfl
    · rw [List.getElem?_eq_none (by rw [List.length_range]; omega), if_neg fun h => hle h.2]
      rfl

theorem known_eq (hn : n ≠ 0) : known views path n = (((views path).getD [])[n - 1]?).join := by
  rw [known, if_neg hn]

/-- An edit of lines remembers the lines that it put in, and forgets others. -/
theorem known_updateViewAfterEdit {a b r : Nat} {crc : BitVec 32}
    (h : known (updateViewAfterEdit views path data a b r) path n = some crc) :
    (a ≤ n ∧ n < a + r ∧ n ≤ (agentSplitLines data).length) ∨ known views path n = some crc := by
  unfold updateViewAfterEdit at h
  split_ifs at h with hpath
  · exact Or.inr h
  · rw [known_map_range, if_pos rfl] at h
    split_ifs at h with hn h1 h2 h3
    · rw [← known_eq hn.1] at h
      exact Or.inr h
    · refine Or.inl ⟨?_, ?_, hn.2⟩ <;> omega
    · rw [← known_eq hn.1] at h
      exact Or.inr h

theorem known_updateViewAfterEdit_of_ne {a b r : Nat} (h : path' ≠ path) (n : Nat) :
    known (updateViewAfterEdit views path data a b r) path' n = known views path' n := by
  unfold updateViewAfterEdit
  split_ifs
  · rfl
  · rw [known_map_range, if_neg h]

/-- An edit of a text remembers nothing, and forgets lines. -/
theorem known_updateViewAfterOldNew {oldData : Bytes} {off len : Nat} {crc : BitVec 32}
    (h : known (updateViewAfterOldNew views path oldData data off len) path' n = some crc) :
    known views path' n = some crc := by
  unfold updateViewAfterOldNew at h
  cases hv : views path with
  | none =>
    rw [hv] at h
    exact h
  | some old =>
    rw [hv] at h
    dsimp only at h
    have hold : (views path).getD [] = old := by rw [hv]; rfl
    split_ifs at h with hempty
    · by_cases hp : path' = path
      · subst hp
        simp [forgetFileView, known] at h
      · simpa [forgetFileView, known, hp] using h
    · rw [known_map_range] at h
      split_ifs at h with hp hn h1 h2
      · rw [hp, known_eq hn.1, hold]
        exact h
      · rw [hp, known_eq hn.1, hold]
        exact h
      · exact h

theorem known_updateViewAfterOldNew_of_ne {oldData : Bytes} {off len : Nat} (h : path' ≠ path) (n : Nat) :
    known (updateViewAfterOldNew views path oldData data off len) path' n = known views path' n := by
  unfold updateViewAfterOldNew
  cases hv : views path with
  | none     => rfl
  | some old =>
    dsimp only
    split_ifs
    · simp [forgetFileView, known, h]
    · rw [known_map_range, if_neg h]

end

/-! ### What was shown or supplied -/

/-- A line that was shown to the model, or supplied by it. -/
structure Seen where
  path    : Bytes
  line    : Nat
  content : Bytes
deriving DecidableEq, Repr

/-- What was shown or supplied last for a line. -/
def lastSeen (ev : List Seen) (path : Bytes) (n : Nat) : Option Bytes :=
  (ev.reverse.find? fun e => e.path = path ∧ e.line = n).map Seen.content

theorem lastSeen_append (ev ev' : List Seen) (path : Bytes) (n : Nat) :
    lastSeen (ev ++ ev') path n = (lastSeen ev' path n).or (lastSeen ev path n) := by
  unfold lastSeen
  rw [List.reverse_append, List.find?_append]
  cases ev'.reverse.find? (fun e => e.path = path ∧ e.line = n) <;> rfl

theorem lastSeen_eq_none {ev : List Seen} {path : Bytes} {n : Nat}
    (h : ∀ e ∈ ev, e.path = path → e.line ≠ n) : lastSeen ev path n = none := by
  unfold lastSeen
  rw [Option.map_eq_none_iff, List.find?_eq_none]
  intro e he hmatch
  have hmatch : e.path = path ∧ e.line = n := by simpa using hmatch
  exact h e (List.mem_reverse.mp he) hmatch.1 hmatch.2

/-- The lines are lines of this text. -/
def OfFile (ev : List Seen) (path data : Bytes) : Prop :=
  ∀ e ∈ ev, e.path = path ∧ lineAt data e.line = some e.content

theorem OfFile.append {ev ev' : List Seen} {path data : Bytes} (h : OfFile ev path data)
    (h' : OfFile ev' path data) : OfFile (ev ++ ev') path data := by
  intro e he
  rcases List.mem_append.mp he with he | he
  · exact h e he
  · exact h' e he

theorem OfFile.lastSeen_eq {ev : List Seen} {path data : Bytes} (h : OfFile ev path data) {n : Nat}
    (hex : ∃ e ∈ ev, e.line = n) : lastSeen ev path n = lineAt data n := by
  obtain ⟨e, he, hn⟩ := hex
  unfold lastSeen
  cases hfind : ev.reverse.find? (fun e => e.path = path ∧ e.line = n) with
  | none =>
    rw [List.find?_eq_none] at hfind
    exact absurd (by simp [(h e he).1, hn]) (hfind e (List.mem_reverse.mpr he))
  | some e' =>
    have hmatch : e'.path = path ∧ e'.line = n := by simpa using List.find?_some hfind
    have hmem := List.mem_reverse.mp (List.mem_of_find?_eq_some hfind)
    rw [← hmatch.2, (h e' hmem).2]
    rfl

/-- What is remembered behind an operation is what was shown or supplied by it last, or what was remembered
    before it and not shown or supplied again. -/
def Traces (views views' : Views) (ev : List Seen) : Prop :=
  ∀ path n crc, known views' path n = some crc →
    (∃ content, lastSeen ev path n = some content ∧ agentLineCrc content = crc) ∨
    (lastSeen ev path n = none ∧ known views path n = some crc)

theorem Traces.refl (views : Views) : Traces views views [] := fun _ _ _ h => Or.inr ⟨rfl, h⟩

theorem Traces.trans {v v' v'' : Views} {ev ev' : List Seen} (h : Traces v v' ev) (h' : Traces v' v'' ev') :
    Traces v v'' (ev ++ ev') := by
  intro path n crc hk
  rw [lastSeen_append]
  rcases h' path n crc hk with ⟨c, hc, hcrc⟩ | ⟨hnone, hk'⟩
  · rw [hc]
    exact Or.inl ⟨c, rfl, hcrc⟩
  · rw [hnone]
    exact h path n crc hk'

/-- One version of one file: the lines that are remembered now were shown or supplied, and the others were
    not. -/
theorem OfFile.traces {views views' : Views} {ev : List Seen} {path data : Bytes} (h : OfFile ev path data)
    (hother : ∀ path' n, path' ≠ path → known views' path' n = known views path' n)
    (hself : ∀ n crc, known views' path n = some crc →
      ((∃ e ∈ ev, e.line = n) ∧ (lineAt data n).map agentLineCrc = some crc) ∨
      ((∀ e ∈ ev, e.line ≠ n) ∧ known views path n = some crc)) : Traces views views' ev := by
  intro path' n crc hk
  by_cases hp : path' = path
  · subst hp
    rcases hself n crc hk with ⟨hex, hcrc⟩ | ⟨hno, hk'⟩
    · left
      obtain ⟨c, hc, hcrc⟩ := Option.map_eq_some_iff.mp hcrc
      exact ⟨c, (h.lastSeen_eq hex).trans hc, hcrc⟩
    · right
      exact ⟨lastSeen_eq_none fun e he _ => hno e he, hk'⟩
  · right
    rw [hother path' n hp] at hk
    exact ⟨lastSeen_eq_none fun e he hpath => absurd ((h e he).1 ▸ hpath).symm hp, hk⟩

end DS4.Agent
