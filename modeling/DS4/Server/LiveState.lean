import DS4.Server.DecodeLoop

namespace DS4.Server

/-!
# Server — the session and the live bindings

The server owns one session and remembers, next to it, what a later request needs to continue
from it: `responses_live`, `anthropic_live` and `thinking_live`.  A binding is matched against
the session by a token count alone.

* `Session` — the session as the server sees it: its tokens and `checkpoint_valid`.
* `Binding` — one live state; `history` is a ghost, the tokens of the session at the time the
  binding was remembered.
* `Binding.Sound` — whenever the recorded count is the position of the session, the session has
  the remembered history.
* `Sound.of_prefix` — a binding stays sound along every extension of its history.
-/

/-! ### The session -/

/-- The token history of the session and `checkpoint_valid`. -/
structure Session where
  tokens : List Nat
  valid : Bool
  deriving DecidableEq

/-- How a `ds4_session_sync` ends that has passed its check of the prompt.  A failed one may
    have moved the checkpoint to a first part of the prompt: the progress callback notes the
    chunks of a prefill, and a short suffix is pushed token by token. -/
inductive SyncIo where
  | ok
  | failed (kept : Option Nat)
  deriving DecidableEq

/-- The length of the longest common prefix. -/
def commonLen : List Nat → List Nat → Nat
  | x :: xs, y :: ys => if x = y then commonLen xs ys + 1 else 0
  | _, _             => 0

theorem commonLen_eq_length {xs ys : List Nat} (h : commonLen xs ys = xs.length) : xs <+: ys := by
  induction xs generalizing ys with
  | nil => exact List.nil_prefix
  | cons x xs ih =>
    cases ys with
    | nil => exact absurd h (by simp [commonLen])
    | cons y ys =>
      rw [commonLen] at h
      split at h
      · subst x
        rw [List.length_cons, Nat.add_right_cancel_iff] at h
        exact (List.prefix_cons_inj y).mpr (ih h)
      · exact absurd h (by simp)

namespace Session

/-- `ds4_session_pos`. -/
def pos (s : Session) : Nat := s.tokens.length

/-- `ds4_session_invalidate`. -/
def invalidate : Session := ⟨[], false⟩

/-- `ds4_session_common_prefix`. -/
def commonPrefix (s : Session) (prompt : List Nat) : Nat :=
  if s.valid then commonLen s.tokens prompt else 0

/-- Is the prompt refused before anything is done? -/
def SyncRejects (ctx : Nat) (prompt : List Nat) : Prop := prompt = [] ∨ ctx ≤ prompt.length

instance (ctx : Nat) (prompt : List Nat) : Decidable (SyncRejects ctx prompt) :=
  inferInstanceAs (Decidable (_ ∨ _))

/-- `ds4_session_sync`; the flag is success. -/
def sync (s : Session) (ctx : Nat) (prompt : List Nat) (io : SyncIo) : Session × Bool :=
  if SyncRejects ctx prompt then (s, false)
  else
    match io with
    | .ok            => (⟨prompt, true⟩, true)
    | .failed none     => (⟨s.tokens, false⟩, false)
    | .failed (some k) => (⟨prompt.take k, false⟩, false)

/-- A sync that leaves the tokens alone. -/
def SyncStays (ctx : Nat) (prompt : List Nat) (io : SyncIo) : Prop :=
  SyncRejects ctx prompt ∨ io = .failed none

variable {s : Session} {ctx : Nat} {prompt : List Nat} {io : SyncIo}

theorem sync_ok (h : (s.sync ctx prompt io).2 = true) :
    (s.sync ctx prompt io).1 = ⟨prompt, true⟩ := by
  unfold sync at h ⊢
  by_cases hrej : SyncRejects ctx prompt
  · rw [if_pos hrej] at h
    exact absurd h (by simp)
  · rw [if_neg hrej] at h ⊢
    cases io with
    | ok => rfl
    | failed kept => cases kept <;> exact absurd h (by simp)

theorem sync_stays (h : SyncStays ctx prompt io) :
    (s.sync ctx prompt io).1.tokens = s.tokens ∧ (s.sync ctx prompt io).2 = false := by
  unfold sync
  split
  · exact ⟨rfl, rfl⟩
  · rename_i hrej
    obtain hr | rfl := h
    · exact absurd hr hrej
    · exact ⟨rfl, rfl⟩

/-- **Sync.** The tokens are what they were, or a first part of the prompt. -/
theorem sync_tokens (s : Session) (ctx : Nat) (prompt : List Nat) (io : SyncIo) :
    (s.sync ctx prompt io).1.tokens = s.tokens ∨
      (s.sync ctx prompt io).1.tokens <+: prompt := by
  unfold sync
  split
  · exact Or.inl rfl
  · cases io with
    | ok => exact Or.inr (List.prefix_refl prompt)
    | failed kept =>
      cases kept with
      | none => exact Or.inl rfl
      | some k => exact Or.inr (List.take_prefix k prompt)

end Session

/-! ### Bindings -/

/-- A `live_tool_state` or `visible_live_state`.  The ghost `history` is the token history of the
    session when the binding was remembered. -/
structure Binding where
  valid : Bool
  liveTokens : Nat
  visibleText : Option Bytes
  callIds : List Bytes
  history : List Nat
  deriving DecidableEq

/-- `id_list_push_unique` -/
def idListPushUnique (ids : List Bytes) (id : Bytes) : List Bytes :=
  if id = [] ∨ id ∈ ids then ids else ids ++ [id]

namespace Binding

/-- `live_tool_state_clear_locked`, `visible_live_clear_locked` -/
def clear : Binding := ⟨false, 0, none, [], []⟩

/-- The tests `valid` and `live_tokens == live_pos`, common to all matches. -/
def isLive (b : Binding) (s : Session) : Bool := b.valid && b.liveTokens = s.pos

/-- `thinking_live_remember`; nothing is remembered under an empty text. -/
def rememberThinking (b : Binding) (s : Session) (visible : Bytes) : Binding :=
  if visible = [] then b else ⟨true, s.pos, some visible, [], s.tokens⟩

/-- `responses_live_remember` -/
def rememberResponses (b : Binding) (s : Session) (visible : Bytes) (calls : List Bytes) : Binding :=
  if visible = [] then b
  else ⟨true, s.pos, some visible, calls.foldl idListPushUnique [], s.tokens⟩

/-- `anthropic_live_remember` -/
def rememberAnthropic (b : Binding) (s : Session) (calls : List Bytes) : Binding :=
  if calls = [] then b
  else
    let ids := calls.foldl idListPushUnique []
    ⟨!ids.isEmpty, s.pos, none, ids, s.tokens⟩

/-- `responses_live_matches_request`, `anthropic_live_matches_request` -/
def matchesRequest (b : Binding) (s : Session) (ids : List Bytes) : Bool :=
  !ids.isEmpty && b.isLive s && b.callIds.length = ids.length &&
    ids.all fun id => decide (id ∈ b.callIds)

/-- The visible text of the binding, if the prompt properly extends it. -/
def visiblePrefix (b : Binding) (s : Session) (promptText : Bytes) : Option Bytes :=
  match b.visibleText with
  | some visible =>
    if b.isLive s && decide (visible.length < promptText.length) && visible.isPrefixOf promptText
    then some visible else none
  | none => none

/-- Whenever the count of the binding is the position of the session, the session has the
    history the binding was remembered with. -/
def Sound (b : Binding) (tokens : List Nat) : Prop :=
  b.valid = true → b.liveTokens = tokens.length → tokens = b.history

variable {b : Binding} {s : Session}

theorem sound_clear (tokens : List Nat) : clear.Sound tokens :=
  fun hv => absurd hv (by simp [clear])

theorem Sound.of_invalid (h : b.valid = false) (tokens : List Nat) : b.Sound tokens :=
  fun hv => absurd hv (by simp [h])

/-- **Extensions.** A binding that recorded the length of its history stays sound wherever that
    history is extended, and where an extension is cut back. -/
theorem Sound.of_prefix {tokens whole : List Nat} (hlen : b.liveTokens = b.history.length)
    (hhist : b.history <+: whole) (htok : tokens <+: whole) : b.Sound tokens := by
  intro _ heq
  have hl : tokens.length = b.history.length := by omega
  exact (List.prefix_of_prefix_length_le htok hhist (by omega)).eq_of_length hl

theorem isLive_iff : b.isLive s = true ↔ b.valid = true ∧ b.liveTokens = s.tokens.length := by
  rw [isLive, Bool.and_eq_true, decide_eq_true_iff]
  rfl

/-- A sound binding that is live has the tokens of the session as its history. -/
theorem Sound.history_eq (h : b.Sound s.tokens) (hlive : b.isLive s = true) :
    b.history = s.tokens ∧ b.liveTokens = b.history.length := by
  obtain ⟨hv, hl⟩ := (isLive_iff).mp hlive
  have hh : s.tokens = b.history := h hv hl
  exact ⟨hh.symm, by rw [← hh]; exact hl⟩

theorem isLive_of_matchesRequest {ids : List Bytes} (h : b.matchesRequest s ids = true) :
    b.isLive s = true := by
  simp only [matchesRequest, Bool.and_eq_true] at h
  exact h.1.1.2

theorem isLive_of_visiblePrefix {promptText visible : Bytes}
    (h : b.visiblePrefix s promptText = some visible) : b.isLive s = true := by
  unfold visiblePrefix at h
  split at h
  · split at h
    · rename_i hc
      simp only [Bool.and_eq_true] at hc
      exact hc.1.1
    · exact absurd h (by simp)
  · exact absurd h (by simp)

theorem rememberThinking_sound (hb : b.Sound s.tokens) (visible : Bytes) :
    (b.rememberThinking s visible).Sound s.tokens := by
  unfold rememberThinking
  split
  · exact hb
  · exact fun _ _ => rfl

theorem rememberResponses_sound (hb : b.Sound s.tokens) (visible : Bytes) (calls : List Bytes) :
    (b.rememberResponses s visible calls).Sound s.tokens := by
  unfold rememberResponses
  split
  · exact hb
  · exact fun _ _ => rfl

/-- What `anthropic_live_remember` stores records the tokens of the session and their count. -/
theorem rememberAnthropic_history {calls : List Bytes} (h : calls ≠ []) :
    (b.rememberAnthropic s calls).history = s.tokens ∧
      (b.rememberAnthropic s calls).liveTokens = s.tokens.length := by
  unfold rememberAnthropic
  rw [if_neg h]
  exact ⟨rfl, rfl⟩

end Binding

end DS4.Server
