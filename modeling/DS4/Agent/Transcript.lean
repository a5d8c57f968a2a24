import DS4.Tokenizer.Pretokenize

namespace DS4.Agent

/-!
# Agent — the transcript

The agent keeps one vector of tokens, and extends it piecemeal: a user message, the prefix of an answer,
each sampled token, the end token, the result of a tool.  Beside each token stands which append it comes
from; the functions of the agent read the ids only.

* `AgentBuf` — the buffer in which tool results are put together.
* `chatAppendMessage`, `chatAppendAssistantPrefix` — the appends.
* `Place`, `next`, `scan` — a transcript read as a sequence of messages.
* `Complete` — the transcripts that are complete messages behind the system part.
-/

open DS4.Tokenizer

/-! ### Buffers -/

/-- `agent_buf`; the bytes of one that was never written to are no string. -/
structure AgentBuf where
  ptr       : Option Bytes := none
  truncated : Bool := false

def AGENT_BUF_MAX : Nat := 128 * 1024

namespace AgentBuf

/-- What was written. -/
def bytes (b : AgentBuf) : Bytes := b.ptr.getD []

/-- `agent_buf_append` -/
def append (b : AgentBuf) (s : Bytes) : AgentBuf :=
  if s = [] ∨ b.truncated then b
  else
    let past := decide (AGENT_BUF_MAX < b.bytes.length + s.length)
    let s := if past then s.take (AGENT_BUF_MAX - b.bytes.length) else s
    if s = [] then { b with truncated := past }
    else { ptr := some (b.bytes ++ s), truncated := past }

/-- `agent_buf_puts` -/
def puts (b : AgentBuf) (s : Bytes) : AgentBuf := b.append (cstr s)

/-- `agent_buf_take` -/
def take (b : AgentBuf) : Bytes := b.bytes

end AgentBuf

/-! ### Tokens -/

/-- Which append a token comes from: the system part, the marker that begins a user message or the result
    of a tool, the text of a message, the two tokens of an answer's prefix, a sampled token, and the end
    token of an answer, which calls a tool or does not. -/
inductive Part where
  | system
  | user
  | tool
  | text
  | assistant
  | think
  | sampled
  | eos (call : Bool)
deriving DecidableEq, Repr

/-- A token with its append. -/
structure Tok where
  id   : Int
  part : Part
deriving DecidableEq, Repr

/-- The transcript. -/
abbrev Transcript := List Tok

/-- The roles of the messages that the agent appends. -/
inductive Role where
  | system
  | user
  | tool
deriving DecidableEq, Repr

/-- The tokens of a text. -/
def textToks (v : Vocab) (part : Part) (content : Bytes) : Transcript :=
  (bpeTokenizeText v content).map fun id => ⟨id, part⟩

/-- `ds4_chat_append_message` -/
def chatAppendMessage (v : Vocab) (tr : Transcript) (role : Role) (content : Bytes) : Transcript :=
  match role with
  | .system => tr ++ textToks v .system content
  | .user   => tr ++ ⟨v.userId, .user⟩ :: textToks v .text content
  | .tool   =>
    tr ++ ⟨v.userId, .tool⟩ :: (textToks v .text (lit "Tool: ") ++ textToks v .text content)

/-- `ds4_chat_append_assistant_prefix` -/
def chatAppendAssistantPrefix (v : Vocab) (tr : Transcript) (think : Bool) : Transcript :=
  tr ++ [⟨v.assistantId, .assistant⟩, ⟨if think then v.thinkStartId else v.thinkEndId, .think⟩]

/-! ### Messages -/

/-- Where a transcript stands: in the system part, in the text of a message, in the prefix of an answer, in
    an answer, behind an answer, and behind an answer whose tool call has no result yet. -/
inductive Place where
  | system
  | text
  | opened
  | answer
  | idle
  | owed
deriving DecidableEq, Repr

/-- A message is complete there, and no result is owed. -/
def Place.settled : Place → Bool
  | .system | .text | .idle => true
  | _                       => false

/-- The next token. An answer begins with its two tokens and has one end token; behind one that calls a
    tool comes the result. -/
def next (v : Vocab) (p : Place) (t : Tok) : Option Place :=
  match t.part with
  | .system    => if p = .system then some .system else none
  | .user      => if p.settled ∧ t.id = v.userId then some .text else none
  | .tool      => if (p.settled ∨ p = .owed) ∧ t.id = v.userId then some .text else none
  | .text      => if p = .text then some .text else none
  | .assistant => if p.settled ∧ t.id = v.assistantId then some .opened else none
  | .think     =>
    if p = .opened ∧ (t.id = v.thinkStartId ∨ t.id = v.thinkEndId) then some .answer else none
  | .sampled   => if p = .answer ∧ t.id ≠ v.eosId then some .answer else none
  | .eos call  =>
    if p = .answer ∧ t.id = v.eosId then some (if call then .owed else .idle) else none

/-- A part of a transcript. -/
def scan (v : Vocab) : Place → Transcript → Option Place
  | p, []      => some p
  | p, t :: tr => (next v p t).bind fun p => scan v p tr

/-- The transcript stands at a place. -/
def At (v : Vocab) (tr : Transcript) (p : Place) : Prop := scan v .system tr = some p

/-- **Complete messages** behind the system part: every answer has its prefix, its sampled tokens and one
    end token before the next message, and every answer that calls a tool has the result behind it. -/
def Complete (v : Vocab) (tr : Transcript) : Prop := ∃ p, At v tr p ∧ p.settled

/-- The token begins a message, or is one of the system part. -/
def Part.begins : Part → Bool
  | .system | .user | .tool | .assistant => true
  | _                                    => false

/-! ### Appends -/

variable {v : Vocab} {tr tr' : Transcript} {p q : Place}

theorem scan_cons (p : Place) (t : Tok) (tr : Transcript) :
    scan v p (t :: tr) = (next v p t).bind fun q => scan v q tr := rfl

theorem scan_append (p : Place) (tr tr' : Transcript) :
    scan v p (tr ++ tr') = (scan v p tr).bind fun q => scan v q tr' := by
  induction tr generalizing p with
  | nil => rfl
  | cons t tr ih =>
    rw [List.cons_append, scan_cons, scan_cons]
    cases next v p t with
    | none   => rfl
    | some q => exact ih q

theorem At.append (h : At v tr p) (h' : scan v p tr' = some q) : At v (tr ++ tr') q := by
  unfold At at h ⊢
  rw [scan_append, h]
  exact h'

theorem At.unique (h : At v tr p) (h' : At v tr q) : p = q := Option.some.inj (h.symm.trans h')

theorem At.not_complete (h : At v tr p) (hp : p.settled = false) : ¬ Complete v tr := by
  rintro ⟨q, hq, hs⟩
  rw [h.unique hq, hs] at hp
  cases hp

theorem scan_text (content : Bytes) : scan v .text (textToks v .text content) = some .text := by
  unfold textToks
  induction bpeTokenizeText v content with
  | nil => rfl
  | cons id ids ih => exact ih

theorem scan_system (content : Bytes) : scan v .system (textToks v .system content) = some .system := by
  unfold textToks
  induction bpeTokenizeText v content with
  | nil => rfl
  | cons id ids ih => exact ih

/-- **A user message** is complete. -/
theorem At.user (h : At v tr p) (hp : p.settled) (content : Bytes) :
    At v (chatAppendMessage v tr .user content) .text := by
  apply h.append
  have hnext : next v p ⟨v.userId, .user⟩ = some .text := by simp [next, hp]
  rw [scan_cons, hnext]
  exact scan_text content

/-- **The result of a tool** is complete, and settles the call. -/
theorem At.tool (h : At v tr p) (hp : p.settled ∨ p = .owed) (content : Bytes) :
    At v (chatAppendMessage v tr .tool content) .text := by
  apply h.append
  have hnext : next v p ⟨v.userId, .tool⟩ = some .text := by simp [next, hp]
  rw [scan_cons, hnext, Option.bind_some, scan_append, scan_text]
  exact scan_text content

/-- **The prefix** of an answer opens it. -/
theorem At.header (h : At v tr p) (hp : p.settled) (think : Bool) :
    At v (chatAppendAssistantPrefix v tr think) .answer := by
  apply h.append
  have hnext : next v p ⟨v.assistantId, .assistant⟩ = some .opened := by simp [next, hp]
  rw [scan_cons, hnext]
  cases think <;> simp [scan, next]

theorem At.sampled (h : At v tr .answer) {id : Int} (hid : id ≠ v.eosId) :
    At v (tr ++ [⟨id, .sampled⟩]) .answer := by
  apply h.append
  simp [scan, next, hid]

/-- **The end token** closes it. -/
theorem At.eos (h : At v tr .answer) (call : Bool) :
    At v (tr ++ [⟨v.eosId, .eos call⟩]) (if call then .owed else .idle) := by
  apply h.append
  simp [scan, next]

/-- **A tail** that begins with a message can stand behind the system part. -/
theorem scan_tail {t : Tok} {tail : Transcript} (h : scan v p (t :: tail) = some q)
    (ht : t.part.begins) : scan v .system (t :: tail) = some q := by
  have hnext : ∀ r, next v p t = some r → next v .system t = some r := by
    intro r hr
    cases t with
    | mk id part =>
      cases part with
      | system =>
        simp only [next] at hr ⊢
        split at hr
        · exact hr
        · cases hr
      | user | tool | assistant =>
        simp only [next] at hr ⊢
        split at hr
        · rename_i hp
          rw [if_pos (by simp [Place.settled, hp.2])]
          exact hr
        · cases hr
      | text | think | sampled | eos => cases ht
  rw [scan_cons] at h ⊢
  cases hn : next v p t with
  | none =>
    rw [hn] at h
    cases h
  | some r =>
    rw [hn] at h
    rw [hnext r hn]
    exact h

end DS4.Agent
