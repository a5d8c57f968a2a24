import DS4.Server.Prompt

namespace DS4.Server

/-!
# Server — what a replay renders

A session is continued from its live tokens when the text they stand for is the beginning of what
a cold replay would render.

* `renderChatPromptText_live_tail` — the live tail is the end of the replay.
* `checkpoint_key_begins_replay` — the checkpoint keys are beginnings of the next replay.
-/

namespace Rendering

/-! ### The loop -/

/-- **Appending**: the loop over two lists. -/
theorem msgs_append (head : Nat → ChatMsg → Bytes) (a b : List ChatMsg) (i : Nat) (r : Rendering) :
    r.msgs head i (a ++ b) = (r.msgs head i a).msgs head (i + a.length) b := by
  induction a generalizing i r with
  | nil => rfl
  | cons m a ih =>
    show (r.msg (head i m) m).msgs head (i + 1) (a ++ b) = _
    rw [ih, List.length_cons, show i + (a.length + 1) = i + 1 + a.length by omega]
    rfl

/-- Only assistant turns have a head. -/
theorem msg_congr {h h' : Bytes} {m : ChatMsg} (r : Rendering)
    (heq : roleIsAssistant m.role = true → h = h') : r.msg h m = r.msg h' m := by
  unfold msg
  by_cases ha : roleIsAssistant m.role = true
  · rw [heq ha]
  · rw [if_neg ha, if_neg ha]

/-- **Heads**: the loop depends on the heads of the assistant turns alone. -/
theorem msgs_congr {head head' : Nat → ChatMsg → Bytes} {ms : List ChatMsg} {i i' : Nat}
    (r : Rendering)
    (heq : ∀ j m, ms[j]? = some m → roleIsAssistant m.role = true →
      head (i + j) m = head' (i' + j) m) :
    r.msgs head i ms = r.msgs head' i' ms := by
  induction ms generalizing i i' r with
  | nil => rfl
  | cons m ms ih =>
    have hm : r.msg (head i m) m = r.msg (head' i' m) m := msg_congr r (heq 0 m rfl)
    show (r.msg (head i m) m).msgs head (i + 1) ms = (r.msg (head' i' m) m).msgs head' (i' + 1) ms
    rw [hm]
    apply ih
    intro j m' hj ha
    have := heq (j + 1) m' hj ha
    rwa [show i + 1 + j = i + (j + 1) by omega, show i' + 1 + j = i' + (j + 1) by omega]

/-- The state with more text before it. -/
def after (p : Bytes) (r : Rendering) : Rendering := { r with out := p ++ r.out }

theorem msg_after (p h : Bytes) (r : Rendering) (m : ChatMsg) :
    (r.after p).msg h m = (r.msg h m).after p := by
  unfold msg
  split
  · rfl
  · split
    · simp [user, after]
    · split
      · unfold toolResult after
        cases r.pendingToolResult <;> simp
      · split
        · unfold assistant after
          cases r.pendingAssistant <;> simp
        · rfl

theorem msgs_after (p : Bytes) (head : Nat → ChatMsg → Bytes) (ms : List ChatMsg) (i : Nat)
    (r : Rendering) : (r.after p).msgs head i ms = (r.msgs head i ms).after p := by
  induction ms generalizing i r with
  | nil => rfl
  | cons m ms ih =>
    show ((r.after p).msg (head i m) m).msgs head (i + 1) ms = _
    rw [msg_after, ih]
    rfl

theorem finish_after (p : Bytes) (think : Bool) (r : Rendering) :
    (r.after p).finish think = p ++ r.finish think := by
  unfold finish after
  cases r.pendingAssistant <;> simp

/-- **Growth**: the loop and the end only append. -/
theorem out_prefix_finish (think : Bool) (head : Nat → ChatMsg → Bytes) (ms : List ChatMsg)
    (i : Nat) (r : Rendering) : r.out <+: (r.msgs head i ms).finish think := by
  -- the state is one with an empty text, put after `r.out`
  have hr : r = ({ r with out := [] } : Rendering).after r.out := by
    simp [after]
  have hout : (r.msgs head i ms).finish think =
      r.out ++ (({ r with out := [] } : Rendering).msgs head i ms).finish think := by
    rw [← finish_after, ← msgs_after, ← hr]
  rw [hout]
  exact List.prefix_append _ _

/-- The state in which nothing has been rendered. -/
def blank : Rendering where
  out := []
  pendingAssistant := false
  pendingToolResult := false

/-- After an assistant turn nothing is pending. -/
theorem assistant_eq_blank_after (h : Bytes) (m : ChatMsg) (r : Rendering) (think : Bool) :
    r.assistant h m = blank.after ((r.assistant h m).finish think) := by
  simp [assistant, finish, after, blank]

/-! ### The turn in which the loop ends -/

theorem msg_of_user {h : Bytes} {m : ChatMsg} (r : Rendering) (hu : roleIsUserLike m.role = true) :
    (r.msg h m).pendingAssistant = true := by
  have hsys : roleIsSystem m.role = false := by
    simp only [roleIsUserLike, roleIsTool, Bool.or_eq_true, decide_eq_true_eq] at hu
    obtain hu | hu | hu := hu <;> (rw [hu]; decide)
  unfold msg
  rw [hsys, if_neg Bool.false_ne_true]
  by_cases huser : m.role = lit "user"
  · rw [if_pos huser]; rfl
  · have htool : roleIsTool m.role = true := by
      simpa [roleIsUserLike, huser] using hu
    rw [if_neg huser, if_pos htool]; rfl

theorem msg_of_assistant {h : Bytes} {m : ChatMsg} (r : Rendering)
    (ha : roleIsAssistant m.role = true) : r.msg h m = r.assistant h m := by
  have hrole : m.role = lit "assistant" := of_decide_eq_true ha
  unfold msg
  rw [if_neg (by rw [hrole]; decide), if_neg (by rw [hrole]; decide),
    if_neg (by rw [hrole]; decide), if_pos ha]

/-- The other messages leave the state as it is. -/
theorem msg_of_other {h : Bytes} {m : ChatMsg} (r : Rendering)
    (hu : roleIsUserLike m.role = false) (ha : roleIsAssistant m.role = false) :
    r.msg h m = r := by
  have huser : m.role ≠ lit "user" := by
    intro h
    rw [h] at hu
    exact absurd hu (by decide)
  have htool : roleIsTool m.role = false := by
    simpa [roleIsUserLike, huser] using hu
  unfold msg
  rw [if_neg huser, htool, ha]
  simp

end Rendering

theorem not_userLike_of_assistant {role : Bytes} (h : roleIsAssistant role = true) :
    roleIsUserLike role = false := by
  rw [of_decide_eq_true h]
  decide

theorem not_system_of_assistant {role : Bytes} (h : roleIsAssistant role = true) :
    roleIsSystem role = false := by
  rw [of_decide_eq_true h]
  decide

theorem not_system_of_userLike {role : Bytes} (h : roleIsUserLike role = true) :
    roleIsSystem role = false := by
  simp only [roleIsUserLike, roleIsTool, Bool.or_eq_true, decide_eq_true_eq] at h
  obtain h | h | h := h <;> (rw [h]; decide)

/-! ### What depends on the whole history -/

theorem systemText_append_of_not_system {h t : List ChatMsg} {schemas : Bytes}
    (ht : ∀ m ∈ t, roleIsSystem m.role = false) :
    systemText (h ++ t) schemas = systemText h schemas := by
  unfold systemText
  rw [List.foldl_append]
  generalize h.foldl _ _ = sys
  induction t with
  | nil => rfl
  | cons m t ih =>
    rw [List.foldl_cons, ht m List.mem_cons_self, if_neg Bool.false_ne_true]
    exact ih (fun m' hm' => ht m' (List.mem_cons_of_mem m hm'))

theorem chatHistoryUsesToolContext_append (h t : List ChatMsg) (schemas : Bytes) :
    chatHistoryUsesToolContext (h ++ t) schemas =
      (chatHistoryUsesToolContext h schemas || chatHistoryUsesToolContext t []) := by
  unfold chatHistoryUsesToolContext
  rw [List.any_append]
  simp [Bool.or_assoc]

theorem chatHead_of_toolContext (think : Bool) (last : Int) (i : Nat) (m : ChatMsg) :
    chatHead think true last i m = tailHead think m := by
  simp [chatHead, tailHead]

/-! ### The live tail -/

/-- The loop over a history that goes on, in tool context. -/
theorem chatLoop_append {h t : List ChatMsg} {schemas : Bytes} {mode : ThinkMode}
    (hctx : chatHistoryUsesToolContext h schemas = true)
    (ht : ∀ m ∈ t, roleIsSystem m.role = false) :
    chatLoop (h ++ t) schemas mode =
      (chatLoop h schemas mode).msgs (fun _ m => tailHead mode.enabled m) h.length t := by
  have hctx' : chatHistoryUsesToolContext (h ++ t) schemas = true := by
    rw [chatHistoryUsesToolContext_append, hctx, Bool.true_or]
  have hstart : chatStart (h ++ t) schemas mode = chatStart h schemas mode := by
    unfold chatStart
    rw [systemText_append_of_not_system ht]
  unfold chatLoop
  rw [Rendering.msgs_append, hctx, hctx', hstart, Nat.zero_add]
  have hbefore : (chatStart h schemas mode).msgs
      (chatHead mode.enabled true (lastUserIdx (h ++ t))) 0 h = (chatStart h schemas mode).msgs
      (chatHead mode.enabled true (lastUserIdx h)) 0 h := by
    apply Rendering.msgs_congr
    intro j m _ _
    rw [chatHead_of_toolContext, chatHead_of_toolContext]
  rw [hbefore]
  apply Rendering.msgs_congr
  intro j m _ _
  exact chatHead_of_toolContext _ _ _ _

/-- The state after an assistant turn is its text and no pending header. -/
theorem msgs_append_assistant (head : Nat → ChatMsg → Bytes) (ms : List ChatMsg) {a : ChatMsg}
    (ha : roleIsAssistant a.role = true) (i : Nat) (r : Rendering) :
    r.msgs head i (ms ++ [a]) = (r.msgs head i ms).assistant (head (i + ms.length) a) a := by
  rw [Rendering.msgs_append]
  exact Rendering.msg_of_assistant _ ha

/-- **Live tail.** For a history that ends with the tool calls of an assistant, and new messages
    that are no system messages, the replay is the rendering of the history followed by the live
    tail over the new messages without its leading end-of-sentence token. -/
theorem renderChatPromptText_live_tail (m t : List ChatMsg) (a : ChatMsg) (schemas : Bytes)
    (mode : ThinkMode) (ha : a.role = lit "assistant") (hcalls : a.calls.v ≠ [])
    (ht : ∀ x ∈ t, roleIsSystem x.role = false) :
    ∃ tail, renderLiveToolTail (m ++ [a] ++ t) (m ++ [a]).length mode = EOS ++ tail ∧
      renderLiveToolTail t 0 mode = EOS ++ tail ∧
      renderChatPromptText (m ++ [a] ++ t) schemas mode =
        renderChatPromptText (m ++ [a]) schemas mode ++ tail := by
  have ha' : roleIsAssistant a.role = true := decide_eq_true ha
  have hctx : chatHistoryUsesToolContext (m ++ [a]) schemas = true := by
    rw [chatHistoryUsesToolContext_append]
    simp [chatHistoryUsesToolContext, ha', hcalls]
  let loop := fun (i : Nat) (r : Rendering) =>
    r.msgs (fun _ x => tailHead mode.enabled x) i t
  -- no index enters the tail
  have hindex : ∀ i i' r, loop i r = loop i' r := fun i i' r =>
    Rendering.msgs_congr r (fun _ _ _ _ => rfl)
  -- the tail, from the state after the end-of-sentence token
  have htail : ∀ i p, (loop i (Rendering.blank.after p)).finish mode.enabled =
      p ++ (loop 0 .blank).finish mode.enabled := by
    intro i p
    show ((Rendering.blank.after p).msgs _ i t).finish mode.enabled = _
    rw [Rendering.msgs_after, Rendering.finish_after]
    exact congrArg (fun r => p ++ Rendering.finish r mode.enabled) (hindex i 0 .blank)
  refine ⟨(loop 0 .blank).finish mode.enabled, ?_, ?_, ?_⟩
  · rw [← htail (m ++ [a]).length EOS]
    unfold renderLiveToolTail
    rw [List.drop_left]
    rfl
  · rw [← htail 0 EOS]
    rfl
  · -- after the assistant turn nothing is pending, as at the start of the tail
    have hstate : chatLoop (m ++ [a]) schemas mode =
        Rendering.blank.after (renderChatPromptText (m ++ [a]) schemas mode) := by
      unfold renderChatPromptText chatLoop
      rw [msgs_append_assistant _ _ ha']
      exact Rendering.assistant_eq_blank_after _ _ _ _
    rw [← htail (m ++ [a]).length, ← hstate]
    unfold renderChatPromptText
    rw [chatLoop_append hctx ht]

/-- A question, a turn with one call, and the result of the call. -/
def sampleUser : ChatMsg := ⟨lit "user", lit "a", [], ⟨[], []⟩⟩
def sampleCall : ChatMsg :=
  ⟨lit "assistant", [], lit "r", ⟨[⟨lit "f", lit "\x7b\x7d"⟩], lit "\n\n<tool_calls></tool_calls>"⟩⟩
def sampleResult : ChatMsg := ⟨lit "tool", lit "1", [], ⟨[], []⟩⟩

theorem renderChatPromptText_live_tail_sample :
    ∃ tail,
      renderLiveToolTail ([sampleUser] ++ [sampleCall] ++ [sampleResult, sampleUser])
        ([sampleUser] ++ [sampleCall]).length .high = EOS ++ tail ∧
      renderLiveToolTail [sampleResult, sampleUser] 0 .high = EOS ++ tail ∧
      renderChatPromptText ([sampleUser] ++ [sampleCall] ++ [sampleResult, sampleUser]) [] .high =
        renderChatPromptText ([sampleUser] ++ [sampleCall]) [] .high ++ tail :=
  renderChatPromptText_live_tail [sampleUser] [sampleResult, sampleUser] sampleCall [] .high rfl
    (by decide) (by decide)

/-! ### Checkpoint keys -/

/-- Does a conversation wait for a turn of the model after one more message? -/
def waitsAfter (waits : Bool) (m : ChatMsg) : Bool :=
  if roleIsUserLike m.role then true else if roleIsAssistant m.role then false else waits

/-- Does the conversation wait for a turn of the model? Only user-like messages and assistant
    turns count. -/
def awaitsAssistant (msgs : List ChatMsg) : Bool := msgs.foldl waitsAfter false

theorem pendingAssistant_msgs (head : Nat → ChatMsg → Bytes) (ms : List ChatMsg) (i : Nat)
    (r : Rendering) :
    (r.msgs head i ms).pendingAssistant = ms.foldl waitsAfter r.pendingAssistant := by
  induction ms generalizing i r with
  | nil => rfl
  | cons m ms ih =>
    show ((r.msg (head i m) m).msgs head (i + 1) ms).pendingAssistant = _
    rw [ih, List.foldl_cons]
    congr 1
    unfold waitsAfter
    by_cases hu : roleIsUserLike m.role = true
    · rw [if_pos hu, Rendering.msg_of_user r hu]
    · rw [if_neg hu]
      by_cases ha : roleIsAssistant m.role = true
      · rw [if_pos ha, Rendering.msg_of_assistant r ha]; rfl
      · rw [if_neg ha, Rendering.msg_of_other r (by simpa using hu) (by simpa using ha)]

theorem pendingAssistant_chatLoop (msgs : List ChatMsg) (schemas : Bytes) (mode : ThinkMode) :
    (chatLoop msgs schemas mode).pendingAssistant = awaitsAssistant msgs :=
  pendingAssistant_msgs _ _ _ _

/-- **Tool turns.** -/
theorem tool_key_begins_replay {h u : List ChatMsg} {a : ChatMsg} {schemas : Bytes} {mode : ThinkMode}
    (hctx : chatHistoryUsesToolContext h schemas = true)
    (hawaits : mode.enabled = true → awaitsAssistant h = true)
    (ha : roleIsAssistant a.role = true) (hu : ∀ m ∈ u, roleIsSystem m.role = false) :
    renderChatPromptText h schemas mode
        ++ buildToolCheckpointSuffix mode a.content a.reasoning a.calls <+:
      renderChatPromptText (h ++ ([a] ++ u)) schemas mode := by
  have hsys : ∀ m ∈ [a] ++ u, roleIsSystem m.role = false := by
    intro m hm
    obtain rfl | hm := List.mem_cons.mp hm
    · exact not_system_of_assistant ha
    · exact hu m hm
  -- the key is the text right after the assistant turn
  have hkey : renderChatPromptText h schemas mode
      ++ buildToolCheckpointSuffix mode a.content a.reasoning a.calls =
      ((chatLoop h schemas mode).assistant (tailHead mode.enabled a) a).out := by
    have hpend := pendingAssistant_chatLoop h schemas mode
    unfold renderChatPromptText buildToolCheckpointSuffix Rendering.finish Rendering.assistant
      tailHead
    cases hthink : mode.enabled with
    | true =>
      rw [hawaits hthink] at hpend
      simp [hpend]
    | false =>
      cases hp : (chatLoop h schemas mode).pendingAssistant <;> simp
  rw [hkey]
  unfold renderChatPromptText
  rw [chatLoop_append hctx hsys, Rendering.msgs_append]
  show _ <+: (((chatLoop h schemas mode).msg (tailHead mode.enabled a) a).msgs _ _ u).finish _
  rw [Rendering.msg_of_assistant _ ha]
  exact Rendering.out_prefix_finish _ _ _ _ _

/-! #### Turns without tools -/

theorem le_lastUserIdxFrom (ms : List ChatMsg) (i : Nat) (last : Int) (hlast : last ≤ i) :
    last ≤ lastUserIdxFrom i last ms := by
  induction ms generalizing i last with
  | nil => exact Int.le_refl _
  | cons m ms ih =>
    show last ≤ lastUserIdxFrom (i + 1) (if roleIsUserLike m.role then (i : Int) else last) ms
    split
    · have := ih (i + 1) i (by omega)
      omega
    · exact ih (i + 1) last (by omega)

/-- The last user-like message is not before any other one. -/
theorem index_le_lastUserIdxFrom {ms : List ChatMsg} (i : Nat) {k : Nat} (last : Int) {m : ChatMsg}
    (hlast : last ≤ i) (hk : ms[k]? = some m) (hu : roleIsUserLike m.role = true) :
    (i + k : Int) ≤ lastUserIdxFrom i last ms := by
  induction ms generalizing i k last with
  | nil => simp at hk
  | cons m' ms ih =>
    show (i + k : Int) ≤
      lastUserIdxFrom (i + 1) (if roleIsUserLike m'.role then (i : Int) else last) ms
    cases k with
    | zero =>
      obtain rfl : m' = m := by simpa using hk
      rw [if_pos hu]
      have := le_lastUserIdxFrom ms (i + 1) i (by omega)
      omega
    | succ k =>
      have := ih (i + 1) (if roleIsUserLike m'.role then (i : Int) else last) (by split <;> omega)
        (by simpa using hk)
      push_cast at this ⊢
      omega

/-- A conversation that waits has a user-like message after each assistant turn. -/
theorem userLike_after_assistant {ms : List ChatMsg} {w : Bool} {j : Nat} {m : ChatMsg}
    (hw : ms.foldl waitsAfter w = true)
    (hj : ms[j]? = some m) (ha : roleIsAssistant m.role = true) :
    ∃ (k : Nat) (m' : ChatMsg), j < k ∧ ms[k]? = some m' ∧ roleIsUserLike m'.role = true := by
  have hsome : ∀ ms : List ChatMsg, ms.foldl waitsAfter false = true →
      ∃ (k : Nat) (m' : ChatMsg), ms[k]? = some m' ∧ roleIsUserLike m'.role = true := by
    intro ms
    induction ms with
    | nil => simp
    | cons m ms ih =>
      intro hw
      by_cases hu : roleIsUserLike m.role = true
      · exact ⟨0, m, rfl, hu⟩
      · rw [List.foldl_cons, waitsAfter, if_neg hu, ite_self] at hw
        obtain ⟨k, m', hk, hu'⟩ := ih hw
        exact ⟨k + 1, m', hk, hu'⟩
  induction ms generalizing w j with
  | nil => simp at hj
  | cons m0 ms ih =>
    rw [List.foldl_cons] at hw
    cases j with
    | zero =>
      obtain rfl : m0 = m := by simpa using hj
      rw [waitsAfter, not_userLike_of_assistant ha, if_neg Bool.false_ne_true, if_pos ha] at hw
      obtain ⟨k, m', hk, hu'⟩ := hsome ms hw
      exact ⟨k + 1, m', by omega, hk, hu'⟩
    | succ j =>
      obtain ⟨k, m', hjk, hk, hu'⟩ := ih hw hj
      exact ⟨k + 1, m', by omega, hk, hu'⟩

/-- Without tools, a conversation that waits shows no reasoning. -/
theorem chatHead_of_awaits {h t : List ChatMsg} (think : Bool)
    (hw : awaitsAssistant h = true) {j : Nat} {m : ChatMsg} (hj : h[j]? = some m)
    (ha : roleIsAssistant m.role = true) :
    chatHead think false (lastUserIdx (h ++ t)) j m = THINK_END := by
  obtain ⟨k, m', hjk, hk, hu⟩ := userLike_after_assistant hw hj ha
  have hk' : (h ++ t)[k]? = some m' := by
    rw [List.getElem?_append_left (List.getElem?_eq_some_iff.mp hk).1, hk]
  have hle := index_le_lastUserIdxFrom 0 (-1) (by omega) hk' hu
  have hnot : ¬ lastUserIdx (h ++ t) < (j : Int) := by
    unfold lastUserIdx
    omega
  simp [chatHead, hnot]

/-- After an assistant turn the text ends with the end-of-sentence token, until more is said. -/
theorem eos_suffix_of_not_pending {head : Nat → ChatMsg → Bytes} {ms : List ChatMsg} {i : Nat}
    {r : Rendering}
    (hr : r.pendingAssistant = false → EOS <:+ r.out ∨
      ∃ m ∈ ms, (roleIsUserLike m.role || roleIsAssistant m.role) = true)
    (hp : (r.msgs head i ms).pendingAssistant = false) : EOS <:+ (r.msgs head i ms).out := by
  induction ms generalizing i r with
  | nil =>
    obtain hr | ⟨m, hm, -⟩ := hr hp
    · exact hr
    · simp at hm
  | cons m ms ih =>
    show EOS <:+ ((r.msg (head i m) m).msgs head (i + 1) ms).out
    apply ih _ hp
    intro hp'
    by_cases hu : roleIsUserLike m.role = true
    · rw [Rendering.msg_of_user r hu] at hp'
      exact absurd hp' (by simp)
    · by_cases ha : roleIsAssistant m.role = true
      · rw [Rendering.msg_of_assistant r ha]
        exact Or.inl (List.suffix_append _ _)
      · rw [Rendering.msg_of_other r (by simpa using hu) (by simpa using ha)] at hp' ⊢
        obtain hr | ⟨m', hm', hrole⟩ := hr hp'
        · exact Or.inl hr
        · obtain rfl | hm' := List.mem_cons.mp hm'
          · simp [hu, ha] at hrole
          · exact Or.inr ⟨m', hm', hrole⟩

/-- A prompt that ends inside a think block waits for a turn of the model. -/
theorem awaits_of_think_suffix {h : List ChatMsg} {schemas : Bytes} {mode : ThinkMode}
    (hconv : ∃ m ∈ h, (roleIsUserLike m.role || roleIsAssistant m.role) = true)
    (htag : THINK_START <:+ renderChatPromptText h schemas mode) : awaitsAssistant h = true := by
  by_contra hw
  rw [Bool.not_eq_true] at hw
  have hp : (chatLoop h schemas mode).pendingAssistant = false := by
    rw [pendingAssistant_chatLoop, hw]
  have heos : EOS <:+ renderChatPromptText h schemas mode := by
    unfold renderChatPromptText Rendering.finish
    rw [hp, if_neg Bool.false_ne_true]
    exact eos_suffix_of_not_pending (fun _ => Or.inr hconv) hp
  have := List.suffix_of_suffix_length_le htag heos (by decide)
  exact absurd this (by decide)

theorem not_toolContext_append {h u : List ChatMsg} {a : ChatMsg} {schemas : Bytes}
    (hctx : chatHistoryUsesToolContext h schemas = false) (ha : roleIsAssistant a.role = true)
    (hcalls : a.calls.v = []) (hu : ∀ m ∈ u, m.role = lit "user") :
    chatHistoryUsesToolContext (h ++ ([a] ++ u)) schemas = false := by
  rw [chatHistoryUsesToolContext_append, hctx, Bool.false_or]
  unfold chatHistoryUsesToolContext
  rw [Bool.or_eq_false_iff, List.any_eq_false]
  refine ⟨by simp, ?_⟩
  intro m hm
  obtain rfl | hm := List.mem_cons.mp hm
  · have := not_userLike_of_assistant ha
    simp only [roleIsUserLike, Bool.or_eq_false_iff] at this
    simp [hcalls, this.2]
  · rw [hu m hm]
    simp [show roleIsAssistant (lit "user") = false by decide,
      show roleIsTool (lit "user") = false by decide]

/-- The loop over a history that goes on with a turn without tools and with user messages. -/
theorem chatLoop_append_toolless {h u : List ChatMsg} {a : ChatMsg} {schemas : Bytes}
    (mode : ThinkMode) (hctx : chatHistoryUsesToolContext h schemas = false)
    (hw : awaitsAssistant h = true) (ha : roleIsAssistant a.role = true)
    (hcalls : a.calls.v = []) (hne : u ≠ []) (hu : ∀ m ∈ u, m.role = lit "user") :
    ∃ head i, chatLoop (h ++ ([a] ++ u)) schemas mode =
      ((chatLoop h schemas mode).assistant THINK_END a).msgs head i u := by
  have huser : ∀ m ∈ u, roleIsUserLike m.role = true := by
    intro m hm
    rw [hu m hm]
    decide
  have hsys : ∀ m ∈ [a] ++ u, roleIsSystem m.role = false := by
    intro m hm
    obtain rfl | hm := List.mem_cons.mp hm
    · exact not_system_of_assistant ha
    · exact not_system_of_userLike (huser m hm)
  have hstart : chatStart (h ++ ([a] ++ u)) schemas mode = chatStart h schemas mode := by
    unfold chatStart
    rw [systemText_append_of_not_system hsys]
  -- the first new message is past the assistant turn, so that the turn shows no reasoning
  have hlast : (h.length : Int) < lastUserIdx (h ++ ([a] ++ u)) := by
    obtain ⟨m, u', rfl⟩ := List.exists_cons_of_ne_nil hne
    have hget : (h ++ ([a] ++ m :: u'))[h.length + 1]? = some m := by simp
    have := index_le_lastUserIdxFrom 0 (-1) (by omega) hget
      (huser m List.mem_cons_self)
    unfold lastUserIdx
    push_cast at this
    omega
  have hhead : chatHead mode.enabled false (lastUserIdx (h ++ ([a] ++ u))) h.length a =
      THINK_END := by
    have hnot : ¬ lastUserIdx (h ++ ([a] ++ u)) < (h.length : Int) := by omega
    simp only [chatHead, hnot, Bool.false_eq_true, or_self, if_false, ite_self]
  -- nor do the earlier ones, before and after
  have hbefore : (chatStart (h ++ ([a] ++ u)) schemas mode).msgs
      (chatHead mode.enabled false (lastUserIdx (h ++ ([a] ++ u)))) 0 h =
      chatLoop h schemas mode := by
    unfold chatLoop
    rw [hstart, hctx]
    apply Rendering.msgs_congr
    intro j m hj hm
    have := chatHead_of_awaits (t := []) mode.enabled hw hj hm
    rw [List.append_nil] at this
    rw [Nat.zero_add, chatHead_of_awaits _ hw hj hm, this]
  refine ⟨chatHead mode.enabled false (lastUserIdx (h ++ ([a] ++ u))), h.length + 1, ?_⟩
  unfold chatLoop at hbefore ⊢
  rw [not_toolContext_append hctx ha hcalls hu, Rendering.msgs_append, hbefore, Nat.zero_add,
    Rendering.msgs_append]
  show (Rendering.msg _ (chatHead _ false _ h.length a) a).msgs _ _ u = _
  rw [hhead, Rendering.msg_of_assistant _ ha]
  rfl

/-- **Turns without tools.** -/
theorem visible_key_begins_replay {h u : List ChatMsg} {a : ChatMsg} {schemas key : Bytes}
    {mode : ThinkMode} (hctx : chatHistoryUsesToolContext h schemas = false)
    (hconv : ∃ m ∈ h, (roleIsUserLike m.role || roleIsAssistant m.role) = true)
    (ha : roleIsAssistant a.role = true) (hcalls : a.calls.v = [])
    (hne : u ≠ []) (hu : ∀ m ∈ u, m.role = lit "user")
    (hkey : buildToollessThinkingVisibleText (renderChatPromptText h schemas mode) mode a.content =
      some key) :
    key <+: renderChatPromptText (h ++ ([a] ++ u)) schemas mode := by
  unfold buildToollessThinkingVisibleText at hkey
  by_cases hthink : mode.enabled = false
  · rw [if_pos hthink] at hkey
    exact absurd hkey (by simp)
  · rw [if_neg hthink] at hkey
    by_cases htag : THINK_START.isSuffixOf (renderChatPromptText h schemas mode) = true
    · rw [if_pos htag] at hkey
      have hw := awaits_of_think_suffix hconv (List.isSuffixOf_iff_suffix.mp htag)
      have hp : (chatLoop h schemas mode).pendingAssistant = true := by
        rw [pendingAssistant_chatLoop, hw]
      have hprompt : renderChatPromptText h schemas mode =
          (chatLoop h schemas mode).out ++ ASSISTANT ++ THINK_START := by
        unfold renderChatPromptText Rendering.finish
        rw [hp, if_pos rfl, if_pos (by simpa using hthink)]
      -- the tag that was stripped is the one of the pending header
      have hout : key = ((chatLoop h schemas mode).assistant THINK_END a).out := by
        rw [hprompt, List.length_append, Nat.add_sub_cancel, List.take_left] at hkey
        rw [← Option.some.inj hkey]
        simp [Rendering.assistant, hp, appendDsmlToolCallsText, hcalls]
      obtain ⟨head, i, hloop⟩ := chatLoop_append_toolless mode hctx hw ha hcalls hne hu
      unfold renderChatPromptText
      rw [hout, hloop]
      exact Rendering.out_prefix_finish _ _ _ _ _
    · rw [if_neg htag] at hkey
      exact absurd hkey (by simp)

/-- **Checkpoint keys.** The key of a tool turn in tool context, and the key of a thinking turn
    without tools, are beginnings of the next replay. A thinking tool turn must answer a
    conversation that waits for it; a turn without tools must be in a conversation, and the next
    messages must be the user's. -/
theorem checkpoint_key_begins_replay (h u : List ChatMsg) (a : ChatMsg) (schemas : Bytes)
    (mode : ThinkMode) (ha : a.role = lit "assistant") (hne : u ≠ [])
    (hu : ∀ m ∈ u, roleIsUserLike m.role = true) :
    (a.calls.v ≠ [] → chatHistoryUsesToolContext h schemas = true →
      (mode.enabled = true → awaitsAssistant h = true) →
      renderChatPromptText h schemas mode
          ++ buildToolCheckpointSuffix mode a.content a.reasoning a.calls <+:
        renderChatPromptText (h ++ ([a] ++ u)) schemas mode) ∧
    (a.calls.v = [] → chatHistoryUsesToolContext h schemas = false →
      (∃ m ∈ h, (roleIsUserLike m.role || roleIsAssistant m.role) = true) →
      (∀ m ∈ u, m.role = lit "user") →
      ∀ key, buildToollessThinkingVisibleText (renderChatPromptText h schemas mode) mode a.content =
          some key →
        key <+: renderChatPromptText (h ++ ([a] ++ u)) schemas mode) := by
  have ha' : roleIsAssistant a.role = true := decide_eq_true ha
  constructor
  · intro _ hctx hawaits
    exact tool_key_begins_replay hctx hawaits ha' (fun m hm => not_system_of_userLike (hu m hm))
  · intro hcalls hctx hconv huser key hkey
    exact visible_key_begins_replay hctx hconv ha' hcalls hne huser hkey

/-- An answer, and an instruction that ends like a prompt. -/
def sampleAnswer : ChatMsg := ⟨lit "assistant", lit "b", lit "r", ⟨[], []⟩⟩
def sampleSystem : ChatMsg := ⟨lit "system", lit "s<think>", [], ⟨[], []⟩⟩

theorem checkpoint_key_begins_replay_sample :
    renderChatPromptText [sampleUser, sampleCall, sampleResult] [] .high
        ++ buildToolCheckpointSuffix .high sampleCall.content sampleCall.reasoning sampleCall.calls
      <+: renderChatPromptText
        ([sampleUser, sampleCall, sampleResult] ++ ([sampleCall] ++ [sampleResult])) [] .high :=
  (checkpoint_key_begins_replay [sampleUser, sampleCall, sampleResult] [sampleResult] sampleCall [] .high
    rfl (by decide) (by decide)).1 (by decide) (by decide) (by decide)

/-- Three keys that are no beginning of the next replay: of a tool turn after an answer, of a turn
    without tools before a tool result, and of a turn without a conversation. -/
theorem checkpoint_key_not_in_replay :
    ¬ renderChatPromptText [sampleUser, sampleCall] [] .high
        ++ buildToolCheckpointSuffix .high sampleCall.content sampleCall.reasoning sampleCall.calls
      <+: renderChatPromptText ([sampleUser, sampleCall] ++ ([sampleCall] ++ [sampleResult])) []
        .high ∧
    (∃ key, buildToollessThinkingVisibleText (renderChatPromptText [sampleUser] [] .high) .high
        sampleAnswer.content = some key ∧
      ¬ key <+: renderChatPromptText ([sampleUser] ++ ([sampleAnswer] ++ [sampleResult])) [] .high) ∧
    ∃ key, buildToollessThinkingVisibleText (renderChatPromptText [sampleSystem] [] .high) .high
        sampleAnswer.content = some key ∧
      ¬ key <+: renderChatPromptText ([sampleSystem] ++ ([sampleAnswer] ++ [sampleUser])) []
        .high := by
  refine ⟨by decide +kernel, ⟨_, rfl, by decide +kernel⟩, ⟨_, rfl, by decide +kernel⟩⟩

end DS4.Server
