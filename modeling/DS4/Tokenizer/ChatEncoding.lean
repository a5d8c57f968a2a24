import DS4.Tokenizer.EffortPrefix

namespace DS4.Tokenizer

/-!
# Tokenizer — chats that are encoded message by message

A chat is encoded in two ways: message by message, where the special tokens are appended by their ids and each
content is tokenized alone, and as a rendered text with the markers in it.

* `chatAppendMessage`, `encodeChatPrompt` — the functions that append tokens.
* `Turn`, `Chat` — a chat whose contents have no marker text; a content of the assistant may begin with one.
* `chatLoop_parts` — the rendered tokenizer, on markers and spans.
* `agrees_iff` — the two ways, for one vocabulary.
* `chat_encoding` — the chats for which they agree.
-/

open DS4.Lib
open Server (ThinkMode thinkMaxPrefix)

/-! ### Message by message -/

/-- `ds4_chat_begin` -/
def chatBegin (v : Vocab) : List Int := [v.bosId]

/-- `ds4_chat_append_max_effort_prefix` -/
def chatAppendMaxEffortPrefix (v : Vocab) : List Int := bpeTokenizeText v thinkMaxPrefix

/-- `ds4_chat_append_message`; a NULL role is that of the user, and a NULL content is empty. -/
def chatAppendMessage (v : Vocab) (role content : Option Bytes) : List Int :=
  let role := role.getD (lit "user")
  let content := content.getD []
  if role = lit "system" ∨ role = lit "developer" then bpeTokenizeText v content
  else if role = lit "assistant" then
    v.assistantId ::
      ((if ¬ THINK_START <+: content ∧ ¬ THINK_END <+: content then [v.thinkEndId] else []) ++
        bpeTokenizeText v content)
  else
    v.userId ::
      ((if role = lit "tool" ∨ role = lit "function" then bpeTokenizeText v (lit "Tool: ") else []) ++
        bpeTokenizeText v content)

/-- The token with which the assistant enters. -/
def thinkId (v : Vocab) (thinkMode : ThinkMode) : Int := if thinkMode.enabled then v.thinkStartId else v.thinkEndId

/-- `ds4_chat_append_assistant_prefix` -/
def chatAppendAssistantPrefix (v : Vocab) (thinkMode : ThinkMode) : List Int := [v.assistantId, thinkId v thinkMode]

/-- `ds4_encode_chat_prompt` -/
def encodeChatPrompt (v : Vocab) (system prompt : Option Bytes) (thinkMode : ThinkMode) : List Int :=
  [v.bosId] ++ ((if thinkMode = .max then bpeTokenizeText v thinkMaxPrefix else []) ++
    ((match system with
      | none   => []
      | some s => if cstr s = [] then [] else bpeTokenizeText v s) ++
    ([v.userId] ++ (bpeTokenizeText v (prompt.getD []) ++ [v.assistantId, thinkId v thinkMode]))))

/-! ### Chats -/

/-- The markers of `special_token_at`. -/
def markers : List Bytes := [BOS, EOS, USER, ASSISTANT, THINK_START, THINK_END, DSML]

/-- There is no marker text in a content. -/
def MarkerFree (s : Bytes) : Prop := ∀ m ∈ markers, ¬ m <:+: s

/-- The marker with which a content begins. -/
def thinkHead (content : Bytes) : Bytes :=
  if THINK_START <+: content then THINK_START
  else if THINK_END <+: content then THINK_END
  else []

/-- What a content says behind the marker with which it may begin. -/
def spoken (assistant : Bool) (content : Bytes) : Bytes :=
  if assistant then content.drop (thinkHead content).length else content

/-- A turn of the user or of the assistant. -/
structure Turn where
  assistant : Bool
  content   : Bytes
  noNul     : (0 : UInt8) ∉ content
  unmarked  : MarkerFree (spoken assistant content)

/-- A chat, with the prefix for the most effort or without it. -/
structure Chat where
  effort   : Bool
  system   : Option Bytes
  turns    : List Turn
  noNul    : ∀ s ∈ system, (0 : UInt8) ∉ s
  unmarked : ∀ s ∈ system, MarkerFree s

/-- The content begins with a marker of thinking. -/
def Turn.OpensThinking (t : Turn) : Prop := t.assistant = true ∧ thinkHead t.content ≠ []

def Turn.role (t : Turn) : Bytes := if t.assistant then lit "assistant" else lit "user"

/-- **Message by message.** -/
def Chat.tokens (chat : Chat) (v : Vocab) (thinkMode : ThinkMode) : List Int :=
  chatBegin v ++ ((if chat.effort then chatAppendMaxEffortPrefix v else []) ++
    ((match chat.system with
      | none   => []
      | some s => chatAppendMessage v (some (lit "system")) (some s)) ++
    (chat.turns.flatMap (fun t => chatAppendMessage v (some t.role) (some t.content)) ++
      chatAppendAssistantPrefix v thinkMode)))

/-- A turn with its markers written out. -/
def Turn.rendered (t : Turn) : Bytes :=
  if t.assistant then ASSISTANT ++ ((if thinkHead t.content = [] then THINK_END else []) ++ t.content)
  else USER ++ t.content

/-- What is rendered in front of the turns, behind the first marker. -/
def Chat.head (chat : Chat) : Bytes := (if chat.effort then thinkMaxPrefix else []) ++ chat.system.getD []

/-- **The same text** with the markers written out. -/
def Chat.rendered (chat : Chat) (thinkMode : ThinkMode) : Bytes :=
  BOS ++ (chat.head ++ (chat.turns.flatMap Turn.rendered ++
    (ASSISTANT ++ if thinkMode.enabled then THINK_START else THINK_END)))

/-! ### Markers -/

variable {v : Vocab} {tokens merges : List Bytes} {s p : Bytes} {t : Turn} {chat : Chat} {fuel : Nat}

theorem markers_eq (v : Vocab) : (specials v).map Prod.fst = markers := rfl

/-- Markers do not begin with each other, and only start with `<` or a bar. -/
theorem markers_apart : ∀ m ∈ markers, m ≠ [] ∧ (∀ c ∈ m.head?, c = 0x3c ∨ c = 0xef) ∧ 0x3c ∉ m.tail ∧
    (0 : UInt8) ∉ m ∧ ∀ m' ∈ markers, m' ≠ m → ¬ m' <+: m ∧ ¬ m <+: m' := by decide +kernel

/-- What the proofs below read off the bytes of the markers. -/
theorem markers_bytes :
    markers.Nodup ∧ (THINK_START ≠ [] ∧ THINK_END ≠ []) ∧
      (BOS.head? = some 0x3c ∧ USER.head? = some 0x3c ∧ ASSISTANT.head? = some 0x3c ∧
        THINK_START.head? = some 0x3c ∧ THINK_END.head? = some 0x3c) ∧
      ((0xef ∈ USER ∧ 1 < USER.length) ∧ 0xef ∈ ASSISTANT ∧ 1 < ASSISTANT.length) ∧
      ((THINK_START ≠ USER ∧ THINK_START ≠ ASSISTANT) ∧ THINK_END ≠ USER ∧ THINK_END ≠ ASSISTANT) ∧
      (Ascii THINK_START ∧ 1 < THINK_START.length) ∧ Ascii THINK_END ∧ 1 < THINK_END.length := by
  decide +kernel

/-- **A marker** at the start of a text is found. -/
theorem specialTokenAt_marker {m : Bytes} {token : Int} (h : (m, token) ∈ specials v) (p : Bytes) :
    specialTokenAt v (m ++ p) = some (token, m.length) := by
  obtain ⟨l, l', hl⟩ := List.append_of_mem h
  have hnodup : markers.Nodup := (markers_bytes).1
  have hmap : markers = l.map Prod.fst ++ m :: l'.map Prod.fst := by
    rw [← markers_eq v, hl, List.map_append, List.map_cons]
  unfold specialTokenAt
  rw [hl, List.findSome?_append, List.findSome?_eq_none_iff.mpr, Option.none_or, List.findSome?_cons]
  · dsimp only
    rw [if_pos (List.prefix_append m p)]
  · -- an earlier marker is another one
    rintro ⟨m', token'⟩ hm'
    have hmem' : m' ∈ l.map Prod.fst := List.mem_map_of_mem (f := Prod.fst) hm'
    have hmem : m ∈ markers := by
      rw [hmap]
      exact List.mem_append_right _ List.mem_cons_self
    have hne : m' ≠ m := by
      rintro rfl
      rw [hmap, List.nodup_append] at hnodup
      exact hnodup.2.2 _ hmem' _ List.mem_cons_self rfl
    have hapart := (markers_apart m hmem).2.2.2.2 m' (by
      rw [hmap]
      exact List.mem_append_left _ hmem') hne
    apply if_neg
    intro hp
    rcases List.prefix_or_prefix_of_prefix hp (List.prefix_append m p) with h' | h'
    · exact hapart.1 h'
    · exact hapart.2 h'

/-- **No marker starts** in a content, in front of a text that begins with `<`. -/
theorem MarkerFree.unmarked (h : MarkerFree s) (hp : ∀ c ∈ p.head?, c = 0x3c) (v : Vocab) : Unmarked v s p := by
  intro k hk
  apply List.findSome?_eq_none_iff.mpr
  rintro ⟨m, token⟩ hm
  have hmem : m ∈ markers := by
    rw [← markers_eq v]
    exact List.mem_map_of_mem (f := Prod.fst) hm
  apply if_neg
  intro hstarts
  dsimp only at hstarts
  rw [List.drop_append_of_le_length (Nat.le_of_lt hk)] at hstarts
  have hfront : s.drop k <+: s.drop k ++ p := List.prefix_append _ _
  rcases List.prefix_or_prefix_of_prefix hstarts hfront with hin | hout
  · exact h m hmem (hin.isInfix.trans (List.drop_suffix k s).isInfix)
  · -- the marker goes on with the text behind the content
    obtain ⟨e, he⟩ := hout
    cases e with
    | nil =>
      rw [List.append_nil] at he
      exact h m hmem (he ▸ (List.drop_suffix k s).isInfix)
    | cons c e =>
      rw [← he, List.prefix_append_right_inj] at hstarts
      obtain ⟨x, y, hxy⟩ := List.exists_cons_of_ne_nil (List.drop_eq_nil_iff.not.mpr (Nat.not_le.mpr hk))
      obtain ⟨z, hz⟩ := hstarts
      have hc : c = 0x3c := hp c (by rw [← hz]; rfl)
      apply (markers_apart m hmem).2.2.1
      rw [← he, hxy, hc]
      exact List.mem_append_right y List.mem_cons_self

/-! ### The rendered tokenizer -/

theorem tokenizeSpan_eq (v : Vocab) (s : Bytes) : tokenizeSpan v s = bpeTokenizeText v s := by
  unfold tokenizeSpan
  split
  · rename_i hs
    rw [hs]
    rfl
  · rfl

theorem chatLoop_span (hs : Unmarked v s p) (span : Bytes) :
    chatLoop v (s.length + fuel) span (s ++ p) = chatLoop v fuel (span ++ s) p := by
  induction s generalizing span with
  | nil => rw [List.length_nil, Nat.zero_add, List.nil_append, List.append_nil]
  | cons c s ih =>
    have hfirst := hs 0 (Nat.succ_pos _)
    have htail : Unmarked v s p := fun k hk => hs (k + 1) (Nat.succ_lt_succ hk)
    rw [List.cons_append, List.drop_zero] at hfirst
    rw [List.length_cons, Nat.succ_add, List.cons_append, chatLoop, hfirst]
    dsimp only
    rw [ih htail, List.append_assoc, List.singleton_append]

theorem chatLoop_marker {m : Bytes} {token : Int} (h : (m, token) ∈ specials v) (span p : Bytes) :
    chatLoop v (fuel + 1) span (m ++ p) = bpeTokenizeText v span ++ token :: chatLoop v fuel [] p := by
  have hmem : m ∈ markers := List.mem_map_of_mem (f := Prod.fst) h
  obtain ⟨c, m', rfl⟩ := List.exists_cons_of_ne_nil (markers_apart m hmem).1
  have hspecial := specialTokenAt_marker h p
  rw [List.cons_append] at hspecial ⊢
  rw [chatLoop, hspecial]
  dsimp only
  rw [← List.cons_append, List.drop_left, tokenizeSpan_eq]

/-- A marker with its token, and the span behind it. -/
abbrev Part := (Bytes × Int) × Bytes

/-- The text of parts. -/
def partsText (parts : List Part) : Bytes := parts.flatMap fun part => part.1.1 ++ part.2

/-- The tokens of parts. -/
def partsTokens (v : Vocab) (parts : List Part) : List Int :=
  parts.flatMap fun part => part.1.2 :: bpeTokenizeText v part.2

/-- A part of a rendered chat. -/
structure Rendered (v : Vocab) (part : Part) : Prop where
  special  : part.1 ∈ specials v
  bracket  : part.1.1.head? = some 0x3c
  unmarked : MarkerFree part.2
  noNul    : (0 : UInt8) ∉ part.2

theorem head_partsText {parts : List Part} (h : ∀ part ∈ parts, Rendered v part) :
    ∀ c ∈ (partsText parts).head?, c = 0x3c := by
  cases parts with
  | nil =>
    intro c hc
    cases hc
  | cons part parts =>
    have hhead := (h part List.mem_cons_self).bracket
    intro c hc
    rw [partsText, List.flatMap_cons, List.append_assoc, List.head?_append, hhead] at hc
    exact (Option.some.inj hc).symm

/-- **The loop** on markers and spans. -/
theorem chatLoop_parts {parts : List Part} (h : ∀ part ∈ parts, Rendered v part)
    (hfuel : (partsText parts).length ≤ fuel) (span : Bytes) :
    chatLoop v fuel span (partsText parts) = bpeTokenizeText v span ++ partsTokens v parts := by
  induction parts generalizing fuel span with
  | nil =>
    rw [partsTokens, List.flatMap_nil, List.append_nil, ← tokenizeSpan_eq]
    cases fuel <;> rfl
  | cons part parts ih =>
    have hpart := h part List.mem_cons_self
    have hparts : ∀ part ∈ parts, Rendered v part := fun q hq => h q (List.mem_cons_of_mem part hq)
    have htext : partsText (part :: parts) = part.1.1 ++ (part.2 ++ partsText parts) := by
      rw [partsText, List.flatMap_cons, List.append_assoc]
      rfl
    have hpos : 0 < part.1.1.length := by
      have hmem : part.1.1 ∈ markers := List.mem_map_of_mem (f := Prod.fst) hpart.special
      exact List.length_pos_of_ne_nil (markers_apart _ hmem).1
    rw [htext] at hfuel ⊢
    rw [List.length_append, List.length_append] at hfuel
    obtain ⟨fuel, rfl⟩ : ∃ k, fuel = part.2.length + k + 1 := ⟨fuel - part.2.length - 1, by omega⟩
    have hunmarked := hpart.unmarked.unmarked (head_partsText hparts) v
    rw [chatLoop_marker hpart.special, chatLoop_span hunmarked, List.nil_append, ih hparts (by omega)]
    rfl

theorem not_mem_partsText {parts : List Part} (h : ∀ part ∈ parts, Rendered v part) :
    (0 : UInt8) ∉ partsText parts := by
  intro hz
  obtain ⟨part, hpart, hz⟩ := List.mem_flatMap.mp hz
  have hmem : part.1.1 ∈ markers := List.mem_map_of_mem (f := Prod.fst) (h part hpart).special
  rcases List.mem_append.mp hz with hz | hz
  · exact (markers_apart _ hmem).2.2.2.1 hz
  · exact (h part hpart).noNul hz

/-- **The rendered tokenizer** on markers and spans. -/
theorem tokenizeRenderedChatVocab_parts {parts : List Part} (h : ∀ part ∈ parts, Rendered v part) :
    tokenizeRenderedChatVocab v (partsText parts) = partsTokens v parts := by
  rw [tokenizeRenderedChatVocab, cstr_eq_self (not_mem_partsText h), chatLoop_parts h (Nat.le_refl _)]
  rfl

/-! ### The parts of a chat -/

/-- The marker of thinking behind that of the assistant, with its token. -/
def thinkEntry (v : Vocab) (content : Bytes) : Bytes × Int :=
  if THINK_START <+: content then (THINK_START, v.thinkStartId) else (THINK_END, v.thinkEndId)

/-- The parts of a turn. -/
def Turn.parts (t : Turn) (v : Vocab) : List Part :=
  if t.assistant then [((ASSISTANT, v.assistantId), []), (thinkEntry v t.content, spoken true t.content)]
  else [((USER, v.userId), t.content)]

/-- The parts of a chat. -/
def Chat.parts (chat : Chat) (v : Vocab) (thinkMode : ThinkMode) : List Part :=
  ((BOS, v.bosId), chat.head) :: (chat.turns.flatMap (fun t => t.parts v) ++
    [((ASSISTANT, v.assistantId), []), ((if thinkMode.enabled then THINK_START else THINK_END, thinkId v thinkMode), [])])

theorem thinkHead_append (content : Bytes) : thinkHead content ++ spoken true content = content := by
  have h : thinkHead content <+: content := by
    unfold thinkHead
    split_ifs with h₁ h₂
    · exact h₁
    · exact h₂
    · exact List.nil_prefix
  have hspoken : spoken true content = content.drop (thinkHead content).length := if_pos rfl
  rw [hspoken]
  exact List.prefix_iff_eq_append.mp h

theorem thinkEntry_append (v : Vocab) (content : Bytes) :
    (thinkEntry v content).1 ++ spoken true content =
      (if thinkHead content = [] then THINK_END else []) ++ content := by
  have hne : THINK_START ≠ [] ∧ THINK_END ≠ [] := (markers_bytes).2.1
  have happend := thinkHead_append content
  unfold thinkEntry
  unfold thinkHead at happend ⊢
  split_ifs at happend ⊢ with h₁ h₂ h₃ h₄ h₅
  · exact absurd h₂ hne.1
  · exact happend
  · exact absurd h₄ hne.2
  · exact happend
  · rw [List.nil_append] at happend
    rw [happend]
  · exact absurd rfl h₅

theorem Turn.partsText_parts (t : Turn) (v : Vocab) : partsText (t.parts v) = t.rendered := by
  unfold Turn.parts Turn.rendered
  cases t.assistant with
  | true =>
    rw [if_pos rfl, if_pos rfl, ← thinkEntry_append v]
    simp [partsText]
  | false =>
    rw [if_neg (by decide), if_neg (by decide)]
    simp [partsText]

theorem Chat.partsText_parts (chat : Chat) (v : Vocab) (thinkMode : ThinkMode) :
    partsText (chat.parts v thinkMode) = chat.rendered thinkMode := by
  have hturns : partsText (chat.turns.flatMap fun t => t.parts v) = chat.turns.flatMap Turn.rendered := by
    rw [partsText, List.flatMap_assoc]
    exact List.flatMap_congr fun t _ => t.partsText_parts v
  have happend : ∀ xs ys : List Part, partsText (xs ++ ys) = partsText xs ++ partsText ys := fun _ _ =>
    List.flatMap_append
  have hcons : ∀ (x : Part) (xs : List Part), partsText (x :: xs) = x.1.1 ++ x.2 ++ partsText xs := fun _ _ => rfl
  have hnil : partsText [] = [] := rfl
  rw [Chat.parts, Chat.rendered, hcons, happend, hturns, hcons, hcons, hnil]
  simp

theorem markerFree_nil : MarkerFree [] := fun m hm h => (markers_apart m hm).1 (List.infix_nil.mp h)

/-- A text in which no marker starts, in front of one without marker text. -/
theorem MarkerFree.append (hp : ∀ c ∈ p, c ≠ 0x3c ∧ c ≠ 0xef) (h : MarkerFree s) : MarkerFree (p ++ s) := by
  induction p with
  | nil => exact h
  | cons c p ih =>
    have htail := ih fun d hd => hp d (List.mem_cons_of_mem c hd)
    intro m hm hin
    obtain ⟨hne, hhead, -⟩ := markers_apart m hm
    obtain ⟨d, m', rfl⟩ := List.exists_cons_of_ne_nil hne
    rw [List.cons_append, List.infix_cons_iff, List.cons_prefix_cons] at hin
    rcases hin with ⟨hd, -⟩ | hin
    · have hc := hp c List.mem_cons_self
      rcases hhead d rfl with hd' | hd'
      · exact hc.1 (hd.symm.trans hd')
      · exact hc.2 (hd.symm.trans hd')
    · exact htail _ hm hin

theorem Chat.head_spec (chat : Chat) : MarkerFree chat.head ∧ (0 : UInt8) ∉ chat.head := by
  have hsystem : MarkerFree (chat.system.getD []) ∧ (0 : UInt8) ∉ chat.system.getD [] := by
    cases hs : chat.system with
    | none => exact ⟨markerFree_nil, List.not_mem_nil⟩
    | some s => exact ⟨chat.unmarked s hs, chat.noNul s hs⟩
  unfold Chat.head
  split_ifs
  · refine ⟨MarkerFree.append (fun c hc => (thinkMaxPrefix_bytes c hc).1) hsystem.1, fun hz => ?_⟩
    rcases List.mem_append.mp hz with hz | hz
    · exact (thinkMaxPrefix_bytes 0 hz).2 rfl
    · exact hsystem.2 hz
  · exact hsystem

theorem thinkEntry_rendered (v : Vocab) (content : Bytes) (h : MarkerFree s) (hs : (0 : UInt8) ∉ s) :
    Rendered v (thinkEntry v content, s) := by
  have hmem : (THINK_START, v.thinkStartId) ∈ specials v ∧ (THINK_END, v.thinkEndId) ∈ specials v := by
    simp [specials]
  obtain ⟨-, -, ⟨-, -, -, hhead⟩, -⟩ := markers_bytes
  unfold thinkEntry
  split_ifs
  · exact ⟨hmem.1, hhead.1, h, hs⟩
  · exact ⟨hmem.2, hhead.2, h, hs⟩

theorem Turn.rendered_parts (t : Turn) (v : Vocab) : ∀ part ∈ t.parts v, Rendered v part := by
  have hmem : (ASSISTANT, v.assistantId) ∈ specials v ∧ (USER, v.userId) ∈ specials v := by simp [specials]
  obtain ⟨-, -, ⟨-, huser, hassistant, -⟩, -⟩ := markers_bytes
  have hfree := t.unmarked
  unfold Turn.parts
  cases hrole : t.assistant with
  | true =>
    rw [hrole] at hfree
    have hspoken : (0 : UInt8) ∉ spoken true t.content := fun hz => t.noNul (List.mem_of_mem_drop hz)
    simp only [if_true, List.forall_mem_cons]
    exact ⟨⟨hmem.1, hassistant, markerFree_nil, List.not_mem_nil⟩, thinkEntry_rendered v t.content hfree hspoken,
      fun _ h => nomatch h⟩
  | false =>
    rw [hrole] at hfree
    simp only [Bool.false_eq_true, if_false, List.forall_mem_cons]
    exact ⟨⟨hmem.2, huser, hfree, t.noNul⟩, fun _ h => nomatch h⟩

theorem Chat.rendered_parts (chat : Chat) (v : Vocab) (thinkMode : ThinkMode) :
    ∀ part ∈ chat.parts v thinkMode, Rendered v part := by
  have hmem : (BOS, v.bosId) ∈ specials v ∧ (ASSISTANT, v.assistantId) ∈ specials v ∧
      (THINK_START, v.thinkStartId) ∈ specials v ∧ (THINK_END, v.thinkEndId) ∈ specials v := by simp [specials]
  have hhead : BOS.head? = some 0x3c ∧ ASSISTANT.head? = some 0x3c ∧ THINK_START.head? = some 0x3c ∧
      THINK_END.head? = some 0x3c := by
    obtain ⟨-, -, ⟨hbos, -, hassistant, hthink⟩, -⟩ := markers_bytes
    exact ⟨hbos, hassistant, hthink⟩
  obtain ⟨hfree, hnul⟩ := chat.head_spec
  unfold Chat.parts
  simp only [List.forall_mem_cons, List.forall_mem_append, List.mem_flatMap]
  refine ⟨⟨hmem.1, hhead.1, hfree, hnul⟩, ?_, ⟨hmem.2.1, hhead.2.1, markerFree_nil, List.not_mem_nil⟩, ?_, ?_⟩
  · rintro part ⟨t, -, hpart⟩
    exact t.rendered_parts v part hpart
  · unfold thinkId
    cases thinkMode.enabled with
    | true => exact ⟨hmem.2.2.1, hhead.2.2.1, markerFree_nil, List.not_mem_nil⟩
    | false => exact ⟨hmem.2.2.2, hhead.2.2.2, markerFree_nil, List.not_mem_nil⟩
  · exact fun _ h => nomatch h

/-! ### The tokens of a chat -/

/-- The token with which a turn begins. -/
def Turn.enter (t : Turn) (v : Vocab) : Int := if t.assistant then v.assistantId else v.userId

/-- The other tokens of a turn that is appended. -/
def Turn.fed (t : Turn) (v : Vocab) : List Int :=
  if t.assistant then (if thinkHead t.content = [] then [v.thinkEndId] else []) ++ bpeTokenizeText v t.content
  else bpeTokenizeText v t.content

/-- The other tokens of a turn that is rendered. -/
def Turn.read (t : Turn) (v : Vocab) : List Int :=
  if t.assistant then (thinkEntry v t.content).2 :: bpeTokenizeText v (spoken true t.content)
  else bpeTokenizeText v t.content

/-- What is appended in front of the turns, behind the first token. -/
def Chat.headTokens (chat : Chat) (v : Vocab) : List Int :=
  (if chat.effort then bpeTokenizeText v thinkMaxPrefix else []) ++ bpeTokenizeText v (chat.system.getD [])

theorem thinkHead_eq_nil (content : Bytes) :
    thinkHead content = [] ↔ ¬ THINK_START <+: content ∧ ¬ THINK_END <+: content := by
  have hne : THINK_START ≠ [] ∧ THINK_END ≠ [] := (markers_bytes).2.1
  unfold thinkHead
  split_ifs with h₁ h₂
  · exact ⟨fun h => absurd h hne.1, fun h => absurd h₁ h.1⟩
  · exact ⟨fun h => absurd h hne.2, fun h => absurd h₂ h.2⟩
  · exact ⟨fun _ => ⟨h₁, h₂⟩, fun _ => rfl⟩

theorem chatAppendMessage_turn (v : Vocab) (t : Turn) :
    chatAppendMessage v (some t.role) (some t.content) = t.enter v :: t.fed v := by
  have hrole : lit "assistant" ≠ lit "system" ∧ lit "assistant" ≠ lit "developer" ∧ lit "user" ≠ lit "system" ∧
      lit "user" ≠ lit "developer" ∧ lit "user" ≠ lit "assistant" ∧ lit "user" ≠ lit "tool" ∧
      lit "user" ≠ lit "function" := by decide +kernel
  obtain ⟨h₁, h₂, h₃, h₄, h₅, h₆, h₇⟩ := hrole
  unfold chatAppendMessage Turn.role Turn.enter Turn.fed
  simp only [Option.getD_some]
  cases t.assistant with
  | true =>
    simp only [if_true]
    rw [if_neg (not_or.mpr ⟨h₁, h₂⟩)]
    by_cases h : thinkHead t.content = []
    · rw [if_pos h, if_pos ((thinkHead_eq_nil _).mp h)]
    · rw [if_neg h, if_neg (fun h' => h ((thinkHead_eq_nil _).mpr h'))]
  | false =>
    simp only [Bool.false_eq_true, if_false]
    rw [if_neg (not_or.mpr ⟨h₃, h₄⟩), if_neg h₅, if_neg (not_or.mpr ⟨h₆, h₇⟩)]
    rfl

/-- **Message by message**: the head, the turns and the entry of the assistant. -/
theorem Chat.tokens_eq (chat : Chat) (v : Vocab) (thinkMode : ThinkMode) :
    chat.tokens v thinkMode = v.bosId :: (chat.headTokens v ++
      (chat.turns.flatMap (fun t => t.enter v :: t.fed v) ++ [v.assistantId, thinkId v thinkMode])) := by
  have hsystem : (match chat.system with
      | none   => []
      | some s => chatAppendMessage v (some (lit "system")) (some s)) = bpeTokenizeText v (chat.system.getD []) := by
    cases chat.system with
    | none => rfl
    | some s =>
      dsimp only
      unfold chatAppendMessage
      simp
  unfold Chat.tokens Chat.headTokens
  rw [hsystem, List.flatMap_congr fun t _ => chatAppendMessage_turn v t, List.append_assoc]
  rfl

theorem Turn.partsTokens_parts (t : Turn) (v : Vocab) : partsTokens v (t.parts v) = t.enter v :: t.read v := by
  have hnil : bpeTokenizeText v [] = [] := rfl
  unfold Turn.parts Turn.enter Turn.read
  cases t.assistant with
  | true => simp [partsTokens, hnil]
  | false => simp [partsTokens]

/-- **The rendered text**: the head, the turns and the entry of the assistant. -/
theorem Chat.tokenize_rendered (chat : Chat) (v : Vocab) (thinkMode : ThinkMode) :
    tokenizeRenderedChatVocab v (chat.rendered thinkMode) = v.bosId :: (bpeTokenizeText v chat.head ++
      (chat.turns.flatMap (fun t => t.enter v :: t.read v) ++ [v.assistantId, thinkId v thinkMode])) := by
  have hturns : partsTokens v (chat.turns.flatMap fun t => t.parts v) =
      chat.turns.flatMap fun t => t.enter v :: t.read v := by
    rw [partsTokens, List.flatMap_assoc]
    exact List.flatMap_congr fun t _ => t.partsTokens_parts v
  have happend : ∀ xs ys : List Part, partsTokens v (xs ++ ys) = partsTokens v xs ++ partsTokens v ys := fun _ _ =>
    List.flatMap_append
  have hcons : ∀ (x : Part) (xs : List Part),
      partsTokens v (x :: xs) = x.1.2 :: bpeTokenizeText v x.2 ++ partsTokens v xs := fun _ _ => rfl
  rw [← chat.partsText_parts v, tokenizeRenderedChatVocab_parts (chat.rendered_parts v thinkMode), Chat.parts, hcons,
    happend, hturns, hcons, hcons]
  rfl

/-! ### Turns -/

/-- Lists are the same up to their first separator, and from there on. -/
theorem append_cons_inj {q : Int → Prop} {xs ys rs ss : List Int} {a b : Int} (hxs : ∀ x ∈ xs, ¬ q x)
    (hys : ∀ y ∈ ys, ¬ q y) (ha : q a) (hb : q b) (h : xs ++ a :: rs = ys ++ b :: ss) : xs = ys ∧ rs = ss := by
  induction xs generalizing ys with
  | nil =>
    cases ys with
    | nil => exact ⟨rfl, (List.cons.inj h).2⟩
    | cons y ys =>
      have hy : a = y := (List.cons.inj h).1
      exact absurd ha (hy ▸ hys y List.mem_cons_self)
  | cons x xs ih =>
    cases ys with
    | nil =>
      have hx : x = b := (List.cons.inj h).1
      exact absurd hb (hx ▸ hxs x List.mem_cons_self)
    | cons y ys =>
      obtain ⟨rfl, htail⟩ := List.cons.inj h
      obtain ⟨rfl, hrest⟩ := ih (fun z hz => hxs z (List.mem_cons_of_mem x hz))
        (fun z hz => hys z (List.mem_cons_of_mem x hz)) htail
      exact ⟨rfl, hrest⟩

/-- The tokens with which turns begin. -/
def Enters (v : Vocab) (token : Int) : Prop := token = v.userId ∨ token = v.assistantId

theorem Turn.enters (t : Turn) (v : Vocab) : Enters v (t.enter v) := by
  unfold Turn.enter
  cases t.assistant with
  | true => exact Or.inr rfl
  | false => exact Or.inl rfl

/-- **Two ways to say the same turns** are the same turn by turn. -/
theorem turns_inj {f g : Turn → List Int} {turns : List Turn} {xs ys rest : List Int}
    (hxs : ∀ x ∈ xs, ¬ Enters v x) (hys : ∀ y ∈ ys, ¬ Enters v y) (hf : ∀ t ∈ turns, ∀ x ∈ f t, ¬ Enters v x)
    (hg : ∀ t ∈ turns, ∀ x ∈ g t, ¬ Enters v x)
    (h : xs ++ (turns.flatMap (fun t => t.enter v :: f t) ++ rest) =
      ys ++ (turns.flatMap (fun t => t.enter v :: g t) ++ rest)) : xs = ys ∧ ∀ t ∈ turns, f t = g t := by
  induction turns generalizing xs ys with
  | nil => exact ⟨List.append_cancel_right h, fun _ ht => nomatch ht⟩
  | cons t turns ih =>
    have ht := List.mem_cons_self (a := t) (l := turns)
    simp only [List.flatMap_cons, List.cons_append, List.append_assoc] at h
    obtain ⟨hhead, htail⟩ := append_cons_inj hxs hys (t.enters v) (t.enters v) h
    obtain ⟨hfirst, hrest⟩ := ih (hf t ht) (hg t ht) (fun u hu => hf u (List.mem_cons_of_mem t hu))
      (fun u hu => hg u (List.mem_cons_of_mem t hu)) htail
    exact ⟨hhead, List.forall_mem_cons.mpr ⟨hfirst, hrest⟩⟩

/-- No token of a text begins a turn. -/
theorem not_enters_of_mem (h : vocabLoad tokens merges = some v) {text : Bytes} {token : Int}
    (hmem : token ∈ bpeTokenizeText v text) : ¬ Enters v token := by
  obtain ⟨-, -, -, -, -, -, huser, hassistant, -⟩ := vocabLoad_eq h
  obtain ⟨-, -, -, hbars, -⟩ := markers_bytes
  rintro (rfl | rfl)
  · exact not_mem_of_bar h huser hbars.1.1 hbars.1.2 text hmem
  · exact not_mem_of_bar h hassistant hbars.2.1 hbars.2.2 text hmem

theorem not_enters_think (h : vocabLoad tokens merges = some v) :
    ¬ Enters v v.thinkStartId ∧ ¬ Enters v v.thinkEndId := by
  obtain ⟨-, -, -, -, -, -, huser, hassistant, hstart, hend, -⟩ := vocabLoad_eq h
  obtain ⟨-, -, -, -, hne, -⟩ := markers_bytes
  refine ⟨?_, ?_⟩
  · rintro (heq | heq)
    · exact hne.1.1 (string_of_lookup h huser (heq ▸ hstart))
    · exact hne.1.2 (string_of_lookup h hassistant (heq ▸ hstart))
  · rintro (heq | heq)
    · exact hne.2.1 (string_of_lookup h huser (heq ▸ hend))
    · exact hne.2.2 (string_of_lookup h hassistant (heq ▸ hend))

theorem Turn.not_enters_fed (h : vocabLoad tokens merges = some v) (t : Turn) : ∀ x ∈ t.fed v, ¬ Enters v x := by
  intro x hx
  unfold Turn.fed at hx
  split_ifs at hx
  · rcases List.mem_append.mp hx with hx | hx
    · rw [List.mem_singleton.mp hx]
      exact (not_enters_think h).2
    · exact not_enters_of_mem h hx
  · exact not_enters_of_mem h hx
  · exact not_enters_of_mem h hx

theorem Turn.not_enters_read (h : vocabLoad tokens merges = some v) (t : Turn) : ∀ x ∈ t.read v, ¬ Enters v x := by
  intro x hx
  unfold Turn.read at hx
  split_ifs at hx
  · rcases List.mem_cons.mp hx with rfl | hx
    · unfold thinkEntry
      split_ifs
      · exact (not_enters_think h).1
      · exact (not_enters_think h).2
    · exact not_enters_of_mem h hx
  · exact not_enters_of_mem h hx

/-! ### Markers of thinking -/

/-- The words that the markers of thinking are cut into. -/
theorem think_words :
    ((0 : UInt8) ∉ lit "<think" ∧ (0 : UInt8) ∉ lit "think" ∧ (0 : UInt8) ∉ lit "</") ∧
      (lit "<think" ≠ [] ∧ lit "think" ≠ [] ∧ lit "</" ≠ [] ∧ lit "think>" ≠ []) ∧
      (∀ w ∈ [lit "<think>", lit "think>", lit "</think>"], Ascii w ∧ ∃ e ∈ w, asciiSpace e = false) ∧
      (pieceRest (lit "<think>") = [0x3e] ∧ pieceRest (lit "think>") = [0x3e] ∧
        pieceRest (lit "</think>") = lit "think>") ∧
      ¬ THINK_START <:+: lit "<think" ∧ ¬ THINK_END <:+: lit "</" ∧ ¬ THINK_END <:+: lit "think" := by
  decide +kernel

/-- **The pieces** of a text that begins with a marker of thinking: the marker is cut. -/
theorem pieces_think {rest : Bytes} (hnul : (0 : UInt8) ∉ rest) :
    pieces (THINK_START ++ rest) = lit "<think" :: pieces (0x3e :: rest) ∧
      pieces (THINK_END ++ rest) = lit "</" :: lit "think" :: pieces (0x3e :: rest) := by
  have hnul' : (0 : UInt8) ∉ lit "<think" ++ 0x3e :: rest ∧ (0 : UInt8) ∉ lit "think" ++ 0x3e :: rest ∧
      (0 : UInt8) ∉ lit "</" ++ (lit "think" ++ 0x3e :: rest) := by
    have hlit := (think_words).1
    have hzero : ¬ (0 : UInt8) = 0x3e := by decide
    simp only [List.mem_append, List.mem_cons, not_or]
    exact ⟨⟨hlit.1, hzero, hnul⟩, ⟨hlit.2.1, hzero, hnul⟩, hlit.2.2, hlit.2.1, hzero, hnul⟩
  -- each piece of the marker ends in front of its last byte
  have hcut : ∀ w r, Ascii w → (∃ e ∈ w, asciiSpace e = false) → pieceRest w = r → r ≠ [] →
      pieceRest (w ++ rest) = r ++ rest := by
    intro w r hascii hspace hr hne
    rw [pieceRest_append hascii hspace (by rwa [hr]), hr]
  obtain ⟨-, hne, hwords, hrests, -⟩ := think_words
  simp only [List.forall_mem_cons] at hwords
  obtain ⟨hw₁, hw₂, hw₃, -⟩ := hwords
  have hstart : pieceRest (lit "<think" ++ 0x3e :: rest) = 0x3e :: rest :=
    hcut (lit "<think>") [0x3e] hw₁.1 hw₁.2 hrests.1 (by decide)
  have hword : pieceRest (lit "think" ++ 0x3e :: rest) = 0x3e :: rest :=
    hcut (lit "think>") [0x3e] hw₂.1 hw₂.2 hrests.2.1 (by decide)
  have hend : pieceRest (lit "</" ++ (lit "think" ++ 0x3e :: rest)) = lit "think" ++ 0x3e :: rest :=
    hcut (lit "</think>") (lit "think>") hw₃.1 hw₃.2 hrests.2.2 hne.2.2.2
  refine ⟨?_, ?_⟩
  · exact pieces_of_rest hnul'.1 hne.1 hstart
  · rw [← pieces_of_rest hnul'.2.1 hne.2.1 hword]
    exact pieces_of_rest hnul'.2.2 hne.2.2.1 hend

/-- No piece has the marker in it. -/
theorem not_infix_think {m rest : Bytes} (hm : m = THINK_START ∨ m = THINK_END) (hnul : (0 : UInt8) ∉ rest)
    (hfree : MarkerFree rest) : ∀ piece ∈ pieces (m ++ rest), ¬ m <:+: piece := by
  have hmem : m ∈ markers := by rcases hm with rfl | rfl <;> simp [markers]
  obtain ⟨-, -, -, -, hfirst⟩ := think_words
  have hrest : ∀ piece ∈ pieces (0x3e :: rest), ¬ m <:+: piece := by
    intro piece hpiece hin
    have hnul' : (0 : UInt8) ∉ 0x3e :: rest := by
      rintro (- | ⟨-, hz⟩)
      exact hnul hz
    have hwhole : piece <:+: 0x3e :: rest := by
      have hflat := pieces_flatten (0x3e :: rest)
      rw [cstr_eq_self hnul'] at hflat
      rw [← hflat]
      exact List.infix_of_mem_flatten hpiece
    have hm' := hin.trans hwhole
    rw [List.infix_cons_iff] at hm'
    rcases hm' with hstart | hin'
    · obtain ⟨c, m', rfl⟩ := List.exists_cons_of_ne_nil (markers_apart m hmem).1
      rcases (markers_apart _ hmem).2.1 c rfl with hc | hc
      · exact absurd (hc.symm.trans (List.cons_prefix_cons.mp hstart).1) (by decide)
      · exact absurd (hc.symm.trans (List.cons_prefix_cons.mp hstart).1) (by decide)
    · exact hfree m hmem hin'
  obtain ⟨hstart, hend⟩ := pieces_think hnul
  rcases hm with rfl | rfl
  · rw [hstart]
    exact List.forall_mem_cons.mpr ⟨hfirst.1, hrest⟩
  · rw [hend]
    exact List.forall_mem_cons.mpr ⟨hfirst.2.1, List.forall_mem_cons.mpr ⟨hfirst.2.2, hrest⟩⟩

/-- The marker with which a content begins, and its token. -/
theorem thinkEntry_of_head {content : Bytes} (h : thinkHead content ≠ []) :
    thinkEntry v content = (THINK_START, v.thinkStartId) ∧ thinkHead content = THINK_START ∨
      thinkEntry v content = (THINK_END, v.thinkEndId) ∧ thinkHead content = THINK_END := by
  unfold thinkHead at h ⊢
  unfold thinkEntry
  split_ifs at h ⊢
  · exact Or.inl ⟨rfl, rfl⟩
  · exact Or.inr ⟨rfl, rfl⟩
  · exact absurd rfl h

/-- **The token of the marker** is not one of the content that begins with it. -/
theorem thinkEntry_not_mem (h : vocabLoad tokens merges = some v) {content : Bytes} (hnul : (0 : UInt8) ∉ content)
    (hfree : MarkerFree (spoken true content)) (hhead : thinkHead content ≠ []) :
    (thinkEntry v content).2 ∉ bpeTokenizeText v content := by
  obtain ⟨-, -, -, -, -, -, -, -, hstart, hend, -⟩ := vocabLoad_eq h
  obtain ⟨-, -, -, -, -, hmarkers⟩ := markers_bytes
  have hspoken : (0 : UInt8) ∉ spoken true content := fun hz => hnul (List.mem_of_mem_drop hz)
  have hcontent := thinkHead_append content
  rcases @thinkEntry_of_head v content hhead with ⟨hentry, heq⟩ | ⟨hentry, heq⟩
  · rw [heq] at hcontent
    have hpieces := not_infix_think (Or.inl rfl) hspoken hfree
    rw [hcontent] at hpieces
    rw [hentry]
    exact not_mem_of_ascii h hstart hmarkers.1.1 hmarkers.1.2 hpieces
  · rw [heq] at hcontent
    have hpieces := not_infix_think (Or.inr rfl) hspoken hfree
    rw [hcontent] at hpieces
    rw [hentry]
    exact not_mem_of_ascii h hend hmarkers.2.1 hmarkers.2.2 hpieces

/-- **Every other content** is read as it is appended, whatever the vocabulary is. -/
theorem Turn.fed_eq_read (t : Turn) (v : Vocab) (ht : ¬ t.OpensThinking) : t.fed v = t.read v := by
  unfold Turn.fed Turn.read
  cases hrole : t.assistant with
  | false => rfl
  | true =>
    have hhead : thinkHead t.content = [] := by
      by_contra hne
      exact ht ⟨hrole, hne⟩
    have happend := thinkHead_append t.content
    rw [hhead, List.nil_append] at happend
    have hentry : thinkEntry v t.content = (THINK_END, v.thinkEndId) := if_neg ((thinkHead_eq_nil _).mp hhead).1
    rw [if_pos rfl, if_pos rfl, if_pos hhead, happend, hentry]
    rfl

/-- **A content that begins with a marker of thinking** is not. -/
theorem Turn.fed_ne_read (h : vocabLoad tokens merges = some v) (t : Turn) (ht : t.OpensThinking) :
    t.fed v ≠ t.read v := by
  obtain ⟨hrole, hhead⟩ := ht
  have hfree := t.unmarked
  rw [hrole] at hfree
  unfold Turn.fed Turn.read
  rw [hrole, if_pos rfl, if_pos rfl, if_neg hhead, List.nil_append]
  intro heq
  apply thinkEntry_not_mem h t.noNul hfree hhead
  rw [heq]
  exact List.mem_cons_self

/-! ### Both ways -/

/-- **For one vocabulary**, the two ways agree when they agree in front of the turns and no content of the assistant
    begins with a marker of thinking. -/
theorem agrees_iff (h : vocabLoad tokens merges = some v) (chat : Chat) (thinkMode : ThinkMode) :
    chat.tokens v thinkMode = tokenizeRenderedChatVocab v (chat.rendered thinkMode) ↔
      chat.headTokens v = bpeTokenizeText v chat.head ∧ ∀ t ∈ chat.turns, ¬ t.OpensThinking := by
  have hhead : ∀ x ∈ chat.headTokens v, ¬ Enters v x := by
    intro x hx
    unfold Chat.headTokens at hx
    rcases List.mem_append.mp hx with hx | hx
    · split_ifs at hx
      · exact not_enters_of_mem h hx
      · cases hx
    · exact not_enters_of_mem h hx
  rw [chat.tokens_eq, chat.tokenize_rendered, List.cons.injEq]
  constructor
  · rintro ⟨-, heq⟩
    obtain ⟨hfirst, hturns⟩ := turns_inj hhead (fun _ hx => not_enters_of_mem h hx)
      (fun t _ => t.not_enters_fed h) (fun t _ => t.not_enters_read h) heq
    exact ⟨hfirst, fun t ht hopens => t.fed_ne_read h hopens (hturns t ht)⟩
  · rintro ⟨hfirst, hturns⟩
    rw [hfirst, List.flatMap_congr fun t ht => congrArg _ (t.fed_eq_read v (hturns t ht))]
    exact ⟨rfl, rfl⟩

/-- The prefix is appended, and the text of the system behind it starts with a newline. -/
def Chat.JoinsPrefix (chat : Chat) : Prop := chat.effort = true ∧ StartsNewline (chat.system.getD [])

theorem Chat.system_noNul (chat : Chat) : (0 : UInt8) ∉ chat.system.getD [] := by
  cases hs : chat.system with
  | none => exact List.not_mem_nil
  | some s => exact chat.noNul s hs

theorem Chat.headTokens_eq (chat : Chat) (v : Vocab) (h : ¬ chat.JoinsPrefix) :
    chat.headTokens v = bpeTokenizeText v chat.head := by
  unfold Chat.headTokens Chat.head
  cases heffort : chat.effort with
  | false => rfl
  | true =>
    rw [if_pos rfl, if_pos rfl]
    exact (bpe_effort_append v chat.system_noNul fun hs => h ⟨heffort, hs⟩).symm

/-- **One turn** of the user. -/
theorem encodeChatPrompt_eq (v : Vocab) (t : Turn) {thinkMode : ThinkMode} (hturns : chat.turns = [t])
    (hrole : t.assistant = false) (heffort : chat.effort = true ↔ thinkMode = .max) :
    encodeChatPrompt v chat.system (some t.content) thinkMode = chat.tokens v thinkMode := by
  have hturn : t.enter v :: t.fed v = v.userId :: bpeTokenizeText v t.content := by
    unfold Turn.enter Turn.fed
    rw [hrole]
    rfl
  have hsystem : (match chat.system with
      | none   => []
      | some s => if cstr s = [] then [] else bpeTokenizeText v s) = bpeTokenizeText v (chat.system.getD []) := by
    cases hs : chat.system with
    | none => rfl
    | some s =>
      dsimp only
      rw [cstr_eq_self (chat.noNul s hs)]
      exact tokenizeSpan_eq v s
  have hprefix : (if thinkMode = .max then bpeTokenizeText v thinkMaxPrefix else []) =
      if chat.effort = true then bpeTokenizeText v thinkMaxPrefix else [] := by
    simp only [heffort]
  unfold encodeChatPrompt
  rw [chat.tokens_eq, hturns, List.flatMap_cons, hturn, hsystem, hprefix, Chat.headTokens]
  simp

/-- **A chat is encoded in one way** by every vocabulary exactly when no content of the assistant begins with a marker
    of thinking and no text of the system that starts with a newline follows the prefix.  A content that begins so is
    encoded in two ways by every vocabulary.  One turn of the user is encoded as `ds4_encode_chat_prompt` does. -/
theorem chat_encoding (chat : Chat) (thinkMode : ThinkMode) :
    ((∀ v tokens merges, vocabLoad tokens merges = some v →
        chat.tokens v thinkMode = tokenizeRenderedChatVocab v (chat.rendered thinkMode)) ↔
      (∀ t ∈ chat.turns, ¬ t.OpensThinking) ∧ ¬ chat.JoinsPrefix) ∧
    (∀ v tokens merges, vocabLoad tokens merges = some v → (∃ t ∈ chat.turns, t.OpensThinking) →
      chat.tokens v thinkMode ≠ tokenizeRenderedChatVocab v (chat.rendered thinkMode)) ∧
    ∀ v t, chat.turns = [t] → t.assistant = false → (chat.effort = true ↔ thinkMode = .max) →
      encodeChatPrompt v chat.system (some t.content) thinkMode = chat.tokens v thinkMode := by
  refine ⟨⟨fun hagree => ?_, fun hcond v tokens merges h => ?_⟩, fun v tokens merges h ⟨t, ht, hopens⟩ heq => ?_, ?_⟩
  · obtain ⟨v, hv⟩ := exists_vocabLoad_sample
    refine ⟨((agrees_iff hv chat thinkMode).mp (hagree _ _ _ hv)).2, fun hjoins => ?_⟩
    obtain ⟨v', tokens', merges', hv', hne⟩ := exists_bpe_effort_ne chat.system_noNul hjoins.2
    have hhead := ((agrees_iff hv' chat thinkMode).mp (hagree _ _ _ hv')).1
    unfold Chat.headTokens Chat.head at hhead
    rw [hjoins.1, if_pos rfl, if_pos rfl] at hhead
    exact hne hhead.symm
  · exact (agrees_iff h chat thinkMode).mpr ⟨chat.headTokens_eq v hcond.2, hcond.1⟩
  · exact ((agrees_iff h chat thinkMode).mp heq).2 t ht hopens
  · intro v t hturns hrole heffort
    exact encodeChatPrompt_eq v t hturns hrole heffort

/-- A reply of the assistant that thinks first. -/
def sampleReply : Turn where
  assistant := true
  content   := lit "<think>hi"
  noNul     := by decide +kernel
  unmarked  := by unfold MarkerFree; decide +kernel

def sampleChat : Chat where
  effort   := false
  system   := none
  turns    := [sampleReply]
  noNul    := fun _ hs => nomatch hs
  unmarked := fun _ hs => nomatch hs

/-- The two ways differ for a reply that begins with `<think>`. -/
theorem not_chat_encoding : ¬ ∀ (chat : Chat) (thinkMode : ThinkMode) (v : Vocab) (tokens merges : List Bytes),
    vocabLoad tokens merges = some v →
      chat.tokens v thinkMode = tokenizeRenderedChatVocab v (chat.rendered thinkMode) := by
  intro hall
  obtain ⟨v, hv⟩ := exists_vocabLoad_sample
  have hagree := (agrees_iff hv sampleChat .high).mp (hall sampleChat .high v _ _ hv)
  have hopens : sampleReply.OpensThinking := ⟨rfl, by decide +kernel⟩
  exact hagree.2 sampleReply List.mem_cons_self hopens

end DS4.Tokenizer
