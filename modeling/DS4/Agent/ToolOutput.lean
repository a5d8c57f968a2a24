import DS4.Agent.FileView

namespace DS4.Agent

/-!
# Agent — the output of tools

A tool prints its result into a buffer that takes 128 KiB, and hands it over as a C string.  Beside the
buffer stands which lines of files were printed, and where; the functions of the agent read the text only.

* `Out` — a buffer with the printed lines.
* `Mark.In` — a text has a line at its place.
* `Out.marks_in` — a buffer that was not cut has all its lines, and so has its C string when no line has a
  NUL byte.
-/

open DS4.Tokenizer DS4.Lib

/-! ### Printing -/

/-- `%d` of a number that is not negative. -/
def natText (n : Nat) : Bytes := (Nat.toDigits 10 n).map fun c => UInt8.ofNat c.toNat

/-- `%d` -/
def intText (i : Int) : Bytes := if i < 0 then 0x2d :: natText i.natAbs else natText i.natAbs

/-- `%+d` -/
def signedText (i : Int) : Bytes := (if i < 0 then 0x2d else 0x2b) :: natText i.natAbs

/-- `snprintf` into a buffer of this size. -/
def snprintf (size : Nat) (s : Bytes) : Bytes := s.take (size - 1)

def PATH_MAX : Nat := 1024

/-- A line of a file that was printed, and where its number stands. -/
structure Mark extends Seen where
  pos : Nat
deriving DecidableEq, Repr

/-- A line as it is printed: its number, a space, and its content. -/
def Mark.text (m : Mark) : Bytes := natText m.line ++ 0x20 :: m.content ++ [0x0a]

/-- The text has the line at its place. -/
def Mark.In (m : Mark) (text : Bytes) : Prop := m.text <+: text.drop m.pos

instance (m : Mark) (text : Bytes) : Decidable (m.In text) :=
  inferInstanceAs (Decidable (_ <+: _))

/-- The line in a text that stands behind another. -/
def Mark.shift (k : Nat) (m : Mark) : Mark := { m with pos := k + m.pos }

/-- A buffer, and the lines that were printed into it. -/
structure Out where
  buf   : AgentBuf := {}
  marks : List Mark := []

namespace Out

def puts (o : Out) (s : Bytes) : Out := { o with buf := o.buf.puts s }

def append (o : Out) (s : Bytes) : Out := { o with buf := o.buf.append s }

/-- A line with its number, as `agent_edit_result_append_line`, `agent_read_range` and
    `agent_search_emit_line` print it. -/
def line (o : Out) (indent path : Bytes) (n : Nat) (content : Bytes) : Out where
  buf   := ((o.buf.puts (indent ++ natText n ++ [0x20])).append content).puts [0x0a]
  marks := o.marks ++ [⟨⟨path, n, content⟩, o.buf.bytes.length + indent.length⟩]

/-- The C string that is handed over. -/
def text (o : Out) : Bytes := cstr o.buf.take

/-- The lines printed, without their places. -/
def seen (o : Out) : List Seen := o.marks.map Mark.toSeen

/-- The lines that the C string has. -/
def shown (o : Out) : List Mark := o.marks.filter fun m => m.In o.text

end Out

/-- A result without lines. -/
def say (s : Bytes) : Out := ({} : Out).puts s

/-- An error. -/
def toolError (err : Bytes) : Out := (((say (lit "Tool error: ")).puts err).puts (lit "\n"))

/-! ### Buffers that were not cut -/

theorem zero_not_mem_cstr (s : Bytes) : 0 ∉ cstr s := by
  intro h
  have hne := (List.all_eq_true.mp (List.all_takeWhile (p := fun c : UInt8 => decide (c ≠ 0)) (l := s))) 0 h
  exact absurd hne (by decide)

/-- Digits are no NUL bytes. -/
theorem zero_not_mem_natText (n : Nat) : 0 ∉ natText n := by
  intro h
  obtain ⟨c, hc, h0⟩ := List.mem_map.mp h
  have hdigit : c.isDigit := Nat.isDigit_of_mem_toDigits (by decide) (by decide) hc
  simp only [Char.isDigit, Bool.and_eq_true, decide_eq_true_eq] at hdigit
  have hlo : 48 ≤ c.toNat := hdigit.1
  have hhi : c.toNat ≤ 57 := hdigit.2
  have hnat : (UInt8.ofNat c.toNat).toNat = c.toNat := UInt8.toNat_ofNat_of_lt (show c.toNat < 256 by omega)
  rw [h0] at hnat
  have : c.toNat = 0 := hnat.symm
  omega

namespace AgentBuf

variable {b : AgentBuf} {s : Bytes}

theorem append_bytes (h : (b.append s).truncated = false) :
    b.truncated = false ∧ (b.append s).bytes = b.bytes ++ s := by
  unfold append at h ⊢
  by_cases hs : s = [] ∨ b.truncated = true
  · rw [if_pos hs] at h ⊢
    rcases hs with rfl | hs
    · exact ⟨h, (List.append_nil _).symm⟩
    · exact absurd (hs.symm.trans h) (by decide)
  · rw [if_neg hs] at h ⊢
    have hs' := not_or.mp hs
    by_cases hmax : AGENT_BUF_MAX < b.bytes.length + s.length
    · simp only [hmax, decide_true, if_true] at h
      split_ifs at h
    · simp only [hmax, decide_false, Bool.false_eq_true, if_false, hs'.1]
      exact ⟨Bool.eq_false_iff.mpr hs'.2, rfl⟩

theorem puts_bytes (h : (b.puts s).truncated = false) :
    b.truncated = false ∧ (b.puts s).bytes = b.bytes ++ cstr s := append_bytes h

theorem bytes_prefix_append (b : AgentBuf) (s : Bytes) : b.bytes <+: (b.append s).bytes := by
  unfold append
  split_ifs with hs
  · exact List.prefix_rfl
  · dsimp only
    generalize (if decide (AGENT_BUF_MAX < b.bytes.length + s.length) = true then
      s.take (AGENT_BUF_MAX - b.bytes.length) else s) = piece
    split_ifs
    · exact List.prefix_rfl
    · exact List.prefix_append ..

end AgentBuf

/-! ### The lines in a text -/

theorem Mark.In.append {m : Mark} {t : Bytes} (h : m.In t) (x : Bytes) : m.In (t ++ x) := by
  obtain ⟨r, hr⟩ := h
  have hle : m.pos ≤ t.length := by
    by_contra hgt
    rw [List.drop_eq_nil_of_le (by omega)] at hr
    simp [Mark.text] at hr
  refine ⟨r ++ x, ?_⟩
  rw [List.drop_append_of_le_length hle, ← hr, List.append_assoc]

theorem Mark.In.shift {m : Mark} {t : Bytes} (h : m.In t) (x : Bytes) : (m.shift x.length).In (x ++ t) := by
  have hdrop : (x ++ t).drop (x.length + m.pos) = t.drop m.pos := by
    rw [List.drop_append, List.drop_eq_nil_of_le (by omega), List.nil_append, Nat.add_sub_cancel_left]
  obtain ⟨r, hr⟩ := h
  exact ⟨r, hr.trans hdrop.symm⟩

/-- A buffer that was not cut has all its lines, and a NUL byte in it is a byte of one of them. -/
structure Out.Sound (o : Out) : Prop where
  ins : o.buf.truncated = false → ∀ m ∈ o.marks, m.In o.buf.bytes
  nul : o.buf.truncated = false → 0 ∈ o.buf.bytes → ∃ m ∈ o.marks, 0 ∈ m.content

namespace Out

variable {o : Out}

theorem Sound.nil : Sound {} := ⟨fun _ _ h => by simp at h, fun _ h => by simp [AgentBuf.bytes] at h⟩

theorem Sound.puts (h : o.Sound) (s : Bytes) : (o.puts s).Sound := by
  constructor
  · intro ht m hm
    obtain ⟨ht', hbytes⟩ := AgentBuf.puts_bytes ht
    show m.In (o.buf.puts s).bytes
    rw [hbytes]
    exact (h.ins ht' m hm).append _
  · intro ht h0
    obtain ⟨ht', hbytes⟩ := AgentBuf.puts_bytes ht
    have h0 : 0 ∈ (o.buf.puts s).bytes := h0
    rw [hbytes] at h0
    rcases List.mem_append.mp h0 with h0 | h0
    · exact h.nul ht' h0
    · exact absurd h0 (zero_not_mem_cstr s)

theorem Sound.line (h : o.Sound) {indent : Bytes} (hindent : 0 ∉ indent) (path : Bytes) (n : Nat)
    (content : Bytes) : (o.line indent path n content).Sound := by
  have hhead : cstr (indent ++ natText n ++ [0x20]) = indent ++ natText n ++ [0x20] := by
    apply cstr_eq_self
    simp [hindent, zero_not_mem_natText]
  have hend : cstr [0x0a] = [0x0a] := rfl
  have key : (o.line indent path n content).buf.truncated = false →
      o.buf.truncated = false ∧ (o.line indent path n content).buf.bytes =
        o.buf.bytes ++ (indent ++ natText n ++ [0x20]) ++ content ++ [0x0a] := by
    intro ht
    obtain ⟨h1, hb1⟩ := AgentBuf.puts_bytes ht
    obtain ⟨h2, hb2⟩ := AgentBuf.append_bytes h1
    obtain ⟨h3, hb3⟩ := AgentBuf.puts_bytes h2
    refine ⟨h3, ?_⟩
    show (((o.buf.puts _).append content).puts [0x0a]).bytes = _
    rw [hb1, hb2, hb3, hhead, hend]
  constructor
  · intro ht m hm
    obtain ⟨ht', hbytes⟩ := key ht
    rw [hbytes]
    rcases List.mem_append.mp hm with hm | hm
    · rw [List.append_assoc, List.append_assoc]
      exact (h.ins ht' m hm).append _
    · rcases List.mem_singleton.mp hm with rfl
      refine ⟨[], ?_⟩
      have hpos : (o.buf.bytes ++ indent).length = o.buf.bytes.length + indent.length := List.length_append
      have hshape : o.buf.bytes ++ (indent ++ natText n ++ [0x20]) ++ content ++ [0x0a] =
          (o.buf.bytes ++ indent) ++ (natText n ++ 0x20 :: content ++ [0x0a]) := by simp
      rw [hshape, List.append_nil, ← hpos, List.drop_left]
      rfl
  · intro ht h0
    obtain ⟨ht', hbytes⟩ := key ht
    rw [hbytes] at h0
    have hcases : 0 ∈ o.buf.bytes ∨ 0 ∈ content := by
      simpa [hindent, zero_not_mem_natText] using h0
    rcases hcases with h0 | h0
    · obtain ⟨m, hm, hc⟩ := h.nul ht' h0
      exact ⟨m, List.mem_append_left _ hm, hc⟩
    · exact ⟨_, List.mem_append_right _ (List.mem_singleton_self _), h0⟩

/-- A buffer that was not cut, with lines without NUL bytes, hands all its lines over. -/
theorem Sound.shown_eq (h : o.Sound) (ht : o.buf.truncated = false) (h0 : ∀ m ∈ o.marks, 0 ∉ m.content) :
    o.shown = o.marks := by
  have htext : o.text = o.buf.bytes :=
    cstr_eq_self fun hmem =>
      let ⟨m, hm, hc⟩ := h.nul ht hmem
      h0 m hm hc
  unfold shown
  rw [List.filter_eq_self]
  intro m hm
  rw [htext]
  exact decide_eq_true (h.ins ht m hm)

end Out

end DS4.Agent
