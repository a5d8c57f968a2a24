import DS4.Server.Text
import Mathlib.Data.List.Forall2
import Mathlib.Data.List.Basic

namespace DS4.Server.Responses

/-!
# Server — the input of a Responses request

The items of a Responses request are read in order into the messages of a chat.  A reasoning item waits for the
assistant message or the call it belongs to, and calls join the assistant message before them.

* `Item`, `ChatMsg` — an item, as its JSON members give it, and a message.
* `stepItem`, `parseResponsesInput` — the loop over the items.
* `Holds`, `InOrder` — which items a message is made of, and that the messages are made of all items, in order.
* `reasonings`, `reasoningTexts` — the reasoning in the messages and in the items.
* `Attached`, `Alone` — a reasoning in the message of the item behind it, or in a message of its own.
* `stepItem_spec`, `runItems_spec` — what an item and a list of items do.
* `responses_input_keeps_order` — what an accepted list gives.
-/

/-! ### Items and messages -/

/-- The types of items. -/
inductive ItemType where
  | message
  | functionCall
  | customToolCall
  | functionCallOutput
  | customToolCallOutput
  | reasoning
  | localShellCall
  | webSearchCall
  | toolSearchCall
  | imageGenerationCall
  | localShellCallOutput
  | webSearchCallOutput
  | toolSearchOutput
  | toolSearchCallOutput
  | imageGenerationCallOutput
  | compaction
  | contextCompaction
  | other
  deriving DecidableEq

/-- The names of the types. -/
def typeNames : List (Bytes × ItemType) :=
  [(lit "message", .message), (lit "function_call", .functionCall), (lit "custom_tool_call", .customToolCall),
   (lit "function_call_output", .functionCallOutput), (lit "custom_tool_call_output", .customToolCallOutput),
   (lit "reasoning", .reasoning), (lit "local_shell_call", .localShellCall), (lit "web_search_call", .webSearchCall),
   (lit "tool_search_call", .toolSearchCall), (lit "image_generation_call", .imageGenerationCall),
   (lit "local_shell_call_output", .localShellCallOutput), (lit "web_search_call_output", .webSearchCallOutput),
   (lit "tool_search_output", .toolSearchOutput), (lit "tool_search_call_output", .toolSearchCallOutput),
   (lit "image_generation_call_output", .imageGenerationCallOutput), (lit "compaction", .compaction),
   (lit "context_compaction", .contextCompaction)]

/-- An item: the members that are read, each absent or a text. -/
structure Item where
  type : Option Bytes
  role : Option Bytes
  content : Option Bytes
  name : Option Bytes
  namespace_ : Option Bytes
  callId : Option Bytes
  itemId : Option Bytes
  arguments : Option Bytes
  output : Option Bytes
  inputStr : Option Bytes
  summary : Option Bytes
  action : Option Bytes
  result : Option Bytes
  toolsJson : Option Bytes
  statusStr : Option Bytes
  deriving DecidableEq

/-- `tool_call` -/
structure ToolCall where
  id : Bytes
  name : Bytes
  arguments : Bytes
  deriving DecidableEq

/-- `chat_msg`, with the empty text for a NULL one.  `tool_call_id` is the first of the ids. -/
structure ChatMsg where
  role : Bytes
  content : Bytes
  reasoning : Bytes
  toolCallIds : List Bytes
  calls : List ToolCall
  deriving DecidableEq

namespace Item

variable (i : Item)

/-- The type, `message` without one. -/
def kind : ItemType :=
  ((typeNames.find? fun n => n.1 = i.type.getD (lit "message")).map Prod.snd).getD .other

def roleText : Bytes := i.role.getD (lit "user")

/-- A message of the assistant. -/
def isAssistantMessage : Prop := i.kind = .message ∧ i.role = some (lit "assistant")

instance : Decidable i.isAssistantMessage := inferInstanceAs (Decidable (_ ∧ _))

/-- A call, of a function or of a hosted tool. -/
def isCall : Bool :=
  match i.kind with
  | .functionCall | .customToolCall | .localShellCall | .webSearchCall | .toolSearchCall | .imageGenerationCall => true
  | _ => false

/-- What a call gave. -/
def isOutput : Bool :=
  match i.kind with
  | .functionCallOutput | .customToolCallOutput | .localShellCallOutput | .webSearchCallOutput | .toolSearchOutput
  | .toolSearchCallOutput | .imageGenerationCallOutput => true
  | _ => false

/-- `is_bookkeeping` -/
def isBookkeeping : Bool := i.kind == .compaction || i.kind == .contextCompaction

/-- `consumes_reasoning` -/
def consumesReasoning : Bool := decide i.isAssistantMessage || i.isCall

/-- Items must be completed. -/
def isCompleted : Bool :=
  match i.statusStr with
  | some s => s == [] || s == lit "completed"
  | none   => true

/-- `call_id ? call_id : item_id ? item_id : ""` -/
def callIdText : Bytes := (i.callId.orElse fun _ => i.itemId).getD []

/-- The call of an item. -/
def toolCall : ToolCall :=
  match i.kind with
  | .functionCall =>
    let args := (i.arguments.orElse fun _ => i.inputStr).getD (lit "\x7b\x7d")
    if i.namespace_.getD [] ≠ [] ∧ i.name.getD [] ≠ [] then
      ⟨i.callIdText, i.namespace_.getD [] ++ i.name.getD [], args⟩
    else ⟨i.callIdText, i.name.getD [], args⟩
  | .customToolCall =>
    ⟨i.callIdText, i.name.getD [], (i.arguments.orElse fun _ => i.inputStr).getD (lit "\x7b\x7d")⟩
  | k =>
    let args := (i.action.orElse fun _ => i.arguments.orElse fun _ => i.inputStr).getD (lit "\x7b\x7d")
    match k with
    | .toolSearchCall => ⟨i.callIdText, lit "tool_search", args⟩
    | .localShellCall => ⟨i.callIdText, lit "local_shell", args⟩
    | _               => ⟨i.callIdText, i.type.getD (lit "message"), args⟩

/-- The text of an output. -/
def outputText : Bytes :=
  match i.kind with
  | .functionCallOutput | .customToolCallOutput => i.output.getD []
  | _ => (i.output.orElse fun _ => i.result.orElse fun _ => i.toolsJson).getD []

/-- `chat_msg_add_tool_call_id`, for a message without ids. -/
def outputIds : List Bytes := if i.callIdText = [] then [] else [i.callIdText]

/-- The text of a reasoning item: the summary and the content, each on lines of its own. -/
def reasoningText : Bytes :=
  let summary := i.summary.getD []
  let content := i.content.getD []
  if summary ≠ [] ∧ content ≠ [] then summary ++ '\n'.toUInt8 :: content else summary ++ content

end Item

/-! ### The loop -/

variable {O : Type}

/-- What the loop carries along: the messages, the reasoning that waits, and the tool schemas that were loaded. -/
structure ParseState (O : Type) where
  msgs : List ChatMsg
  pendingReasoning : Bytes
  loadedToolSchemas : Bytes
  orders : O

namespace ParseState

variable (s : ParseState O)

/-- The reasoning that waits, in an assistant message of its own. -/
def flush : ParseState O :=
  if s.pendingReasoning = [] then s
  else { s with
    msgs := s.msgs ++ [⟨lit "assistant", [], s.pendingReasoning, [], []⟩]
    pendingReasoning := [] }

/-- A message is pushed; one of the assistant takes the reasoning that waits. -/
def pushMessage (role content : Bytes) : ParseState O :=
  if role = lit "assistant" then
    { s with
      msgs := s.msgs ++ [⟨role, content, s.pendingReasoning, [], []⟩]
      pendingReasoning := [] }
  else { s with msgs := s.msgs ++ [⟨role, content, [], [], []⟩] }

/-- A call joins the last message, if it is of the assistant. -/
def pushCall (tc : ToolCall) : ParseState O :=
  match s.msgs.getLast? with
  | some last =>
    if last.role = lit "assistant" then
      if s.pendingReasoning ≠ [] ∧ last.reasoning = [] then
        { s with
          msgs := s.msgs.dropLast ++ [{ last with reasoning := s.pendingReasoning, calls := last.calls ++ [tc] }]
          pendingReasoning := [] }
      else { s with msgs := s.msgs.dropLast ++ [{ last with calls := last.calls ++ [tc] }] }
    else
      { s with
        msgs := s.msgs ++ [⟨lit "assistant", [], s.pendingReasoning, [], [tc]⟩]
        pendingReasoning := [] }
  | none =>
    { s with
      msgs := s.msgs ++ [⟨lit "assistant", [], s.pendingReasoning, [], [tc]⟩]
      pendingReasoning := [] }

/-- An output is a message of the tool. -/
def pushOutput (content : Bytes) (ids : List Bytes) : ParseState O :=
  { s with msgs := s.msgs ++ [⟨lit "tool", content, [], ids, []⟩] }

/-- A reasoning waits behind what waits already. -/
def stash (summary content : Bytes) : ParseState O :=
  let p := s.pendingReasoning
  let p := if summary = [] then p else (if p = [] then [] else p ++ ['\n'.toUInt8]) ++ summary
  let p := if content = [] then p else (if p = [] then [] else p ++ ['\n'.toUInt8]) ++ content
  { s with pendingReasoning := p }

end ParseState

section Loop

-- `parse_tools_value`: the schemas of a tool list, and the orders with those of its tools.
variable (parseToolsValue : Bytes → O → Option (Bytes × O))

/-- The tools a search gave are loaded. -/
def loadTools (s : ParseState O) (i : Item) : Option (ParseState O) :=
  match i.kind, i.toolsJson with
  | .toolSearchOutput, some tools =>
    (parseToolsValue tools s.orders).map fun (schemas, orders) =>
      if schemas = [] then { s with orders := orders }
      else
        { s with
          loadedToolSchemas :=
            (if s.loadedToolSchemas = [] then [] else s.loadedToolSchemas ++ ['\n'.toUInt8]) ++ schemas
          orders := orders }
  | _, _ => some s

/-- What waits is flushed, unless the item takes it or is bookkeeping. -/
def turnStart (s : ParseState O) (i : Item) : ParseState O :=
  if !i.consumesReasoning && !i.isBookkeeping then s.flush else s

/-- What an item does, by its type. -/
def readItem (s : ParseState O) (i : Item) : Option (ParseState O) :=
  match i.kind with
  | .message => some (s.pushMessage i.roleText (i.content.getD []))
  | .functionCall | .customToolCall => some (s.pushCall i.toolCall)
  | .functionCallOutput | .customToolCallOutput => some (s.pushOutput i.outputText i.outputIds)
  | .reasoning => some (s.stash (i.summary.getD []) (i.content.getD []))
  | .localShellCall | .webSearchCall | .toolSearchCall | .imageGenerationCall => some (s.pushCall i.toolCall)
  | .localShellCallOutput | .webSearchCallOutput | .toolSearchOutput | .toolSearchCallOutput
  | .imageGenerationCallOutput =>
    (loadTools parseToolsValue s i).map fun s => s.pushOutput i.outputText i.outputIds
  | .compaction | .contextCompaction => some s
  | .other => none

/-- One turn of the loop of `parse_responses_input`. -/
def stepItem (s : ParseState O) (i : Item) : Option (ParseState O) :=
  if i.isCompleted then readItem parseToolsValue (turnStart s i) i else none

/-- The loop. -/
def runItems (s : ParseState O) (items : List Item) : Option (ParseState O) :=
  items.foldlM (stepItem parseToolsValue) s

/-- `parse_responses_input`: reasoning that is left at the end gets a message of its own. -/
def parseResponsesInput (orders : O) (items : List Item) : Option (ParseState O) :=
  (runItems parseToolsValue ⟨[], [], [], orders⟩ items).map ParseState.flush

end Loop

/-! ### What the messages say -/

/-- An item that is shown in the messages. -/
def Item.isShown (i : Item) : Bool := i.kind == .message || i.isCall || i.isOutput

/-- The messages, calls and outputs among the items. -/
def shown (items : List Item) : List Item := items.filter Item.isShown

/-- What a message is made of: a message item and the calls that joined it, or calls alone, or an output. -/
inductive Holds : ChatMsg → List Item → Prop
  | said {i : Item} {calls : List Item} {reasoning : Bytes} (hi : i.kind = .message)
      (hcalls : ∀ c ∈ calls, c.isCall = true)
      (hrole : i.roleText = lit "assistant" ∨ calls = [] ∧ reasoning = []) :
      Holds ⟨i.roleText, i.content.getD [], reasoning, [], calls.map Item.toolCall⟩ (i :: calls)
  | called {calls : List Item} {reasoning : Bytes} (hcalls : ∀ c ∈ calls, c.isCall = true) :
      Holds ⟨lit "assistant", [], reasoning, [], calls.map Item.toolCall⟩ calls
  | output {i : Item} (hi : i.isOutput = true) : Holds ⟨lit "tool", i.outputText, [], i.outputIds, []⟩ [i]

/-- The messages are made of the items that are shown, each used once and in order. -/
def InOrder (msgs : List ChatMsg) (items : List Item) : Prop :=
  ∃ parts, List.Forall₂ Holds msgs parts ∧ parts.flatten = shown items

/-- The texts that are not empty. -/
def nonempty (texts : List Bytes) : List Bytes := texts.filter (· ≠ [])

/-- The reasoning in the messages. -/
def reasonings (msgs : List ChatMsg) : List Bytes := nonempty (msgs.map ChatMsg.reasoning)

/-- The reasoning in the items. -/
def reasoningTexts (items : List Item) : List Bytes :=
  nonempty ((items.filter fun i => i.kind = .reasoning).map Item.reasoningText)

/-- Among the messages, the one that holds `i` has the reasoning `text`; the items before and behind `i` are held in
    order before and behind it. -/
def Attached (msgs : List ChatMsg) (before : List Item) (text : Bytes) (i : Item) (behind : List Item) : Prop :=
  ∃ msgs₁ m msgs₂ parts₁ part₁ part₂ parts₂, msgs = msgs₁ ++ m :: msgs₂ ∧ m.reasoning = text ∧
    List.Forall₂ Holds msgs₁ parts₁ ∧ Holds m (part₁ ++ i :: part₂) ∧ List.Forall₂ Holds msgs₂ parts₂ ∧
    parts₁.flatten ++ part₁ = shown before ∧ part₂ ++ parts₂.flatten = shown behind

/-- Among the messages, one that holds nothing has the reasoning `text`, between the items before and behind it. -/
def Alone (msgs : List ChatMsg) (before : List Item) (text : Bytes) (behind : List Item) : Prop :=
  ∃ msgs₁ msgs₂, msgs = msgs₁ ++ ⟨lit "assistant", [], text, [], []⟩ :: msgs₂ ∧
    InOrder msgs₁ before ∧ InOrder msgs₂ behind

/-! ### Messages and their items -/

theorem Holds.alone (reasoning : Bytes) : Holds ⟨lit "assistant", [], reasoning, [], []⟩ [] :=
  @Holds.called [] reasoning fun _ hc => nomatch hc

theorem Holds.message {i : Item} {reasoning : Bytes} (hi : i.kind = .message)
    (hrole : i.roleText = lit "assistant" ∨ reasoning = []) :
    Holds ⟨i.roleText, i.content.getD [], reasoning, [], []⟩ [i] :=
  @Holds.said i [] reasoning hi (fun _ hc => nomatch hc) (hrole.imp_right fun h => ⟨rfl, h⟩)

theorem Holds.call {i : Item} (reasoning : Bytes) (hi : i.isCall = true) :
    Holds ⟨lit "assistant", [], reasoning, [], [i.toolCall]⟩ [i] := by
  refine @Holds.called [i] reasoning fun c hc => ?_
  rw [List.mem_singleton.1 hc]
  exact hi

/-- A call joins a message of the assistant, whatever reasoning that has then. -/
theorem Holds.join {i : Item} {m : ChatMsg} {part : List Item} (h : Holds m part) (hrole : m.role = lit "assistant")
    (hi : i.isCall = true) (reasoning : Bytes) :
    Holds { m with reasoning := reasoning, calls := m.calls ++ [i.toolCall] } (part ++ [i]) := by
  have hall : ∀ {calls : List Item}, (∀ c ∈ calls, c.isCall = true) → ∀ c ∈ calls ++ [i], c.isCall = true := by
    intro calls hcalls c hc
    rcases List.mem_append.1 hc with hc | hc
    · exact hcalls c hc
    · rw [List.mem_singleton.1 hc]
      exact hi
  cases h with
  | @said j calls _ hj hcalls _ =>
    have h := @Holds.said j (calls ++ [i]) reasoning hj (hall hcalls) (Or.inl hrole)
    rwa [List.map_append] at h
  | @called calls _ hcalls =>
    have h := @Holds.called (part ++ [i]) reasoning (hall hcalls)
    rwa [List.map_append] at h
  | output hj =>
    have htool : lit "tool" = lit "assistant" := hrole
    exact absurd htool (by decide)

/-! ### Longer message lists -/

/-- A message list got longer by `held`: behind its end, or also at its last message. -/
inductive Extends (msgs : List ChatMsg) : List ChatMsg → List Item → Prop
  | push {added : List ChatMsg} {parts : List (List Item)} (hadded : List.Forall₂ Holds added parts) :
      Extends msgs (msgs ++ added) parts.flatten
  | join {init added : List ChatMsg} {last last' : ChatMsg} {joined : List Item} {parts : List (List Item)}
      (hmsgs : msgs = init ++ [last]) (hjoin : ∀ part, Holds last part → Holds last' (part ++ joined))
      (hreasoning : last.reasoning ≠ [] → last'.reasoning = last.reasoning)
      (hadded : List.Forall₂ Holds added parts) : Extends msgs (init ++ last' :: added) (joined ++ parts.flatten)

variable {msgs msgs' msgs'' : List ChatMsg} {held held' : List Item}

theorem Extends.refl (msgs : List ChatMsg) : Extends msgs msgs [] := by
  have h : Extends msgs (msgs ++ []) ([] : List (List Item)).flatten := Extends.push List.Forall₂.nil
  rwa [List.append_nil] at h

/-- Where the last element of an append is: in the second list, unless that is empty. -/
theorem append_eq_concat {α : Type} {xs ys zs : List α} {z : α} (h : xs ++ ys = zs ++ [z]) :
    (ys = [] ∧ xs = zs ++ [z]) ∨ ∃ ys', ys = ys' ++ [z] ∧ zs = xs ++ ys' := by
  rcases List.eq_nil_or_concat ys with rfl | ⟨ys', y, rfl⟩
  · rw [List.append_nil] at h
    exact Or.inl ⟨rfl, h⟩
  · rw [List.concat_eq_append, ← List.append_assoc] at h
    obtain ⟨hzs, hz⟩ := List.append_inj' h rfl
    obtain rfl := List.singleton_inj.1 hz
    exact Or.inr ⟨ys', List.concat_eq_append, hzs.symm⟩

/-- The last message has the last part. -/
theorem forall₂_concat {m : ChatMsg} {parts : List (List Item)} (h : List.Forall₂ Holds (msgs ++ [m]) parts) :
    ∃ parts' part, parts = parts' ++ [part] ∧ List.Forall₂ Holds msgs parts' ∧ Holds m part := by
  induction msgs generalizing parts with
  | nil =>
    cases h with
    | cons hm hnil =>
      cases hnil
      exact ⟨[], _, rfl, List.Forall₂.nil, hm⟩
  | cons m₀ msgs ih =>
    cases h with
    | cons hm hrest =>
      obtain ⟨parts', part, rfl, hinit, hlast⟩ := ih hrest
      exact ⟨_ :: parts', part, rfl, List.Forall₂.cons hm hinit, hlast⟩

theorem Extends.trans (h : Extends msgs msgs' held) (h' : Extends msgs' msgs'' held') :
    Extends msgs msgs'' (held ++ held') := by
  cases h' with
  | push hadded' =>
    cases h with
    | push hadded =>
      rw [List.append_assoc, ← List.flatten_append]
      exact Extends.push (List.rel_append hadded hadded')
    | join hmsgs hjoin hreasoning hadded =>
      rw [List.append_assoc, List.append_assoc, List.cons_append, ← List.flatten_append]
      exact Extends.join hmsgs hjoin hreasoning (List.rel_append hadded hadded')
  | @join init' added' last' last'' joined' parts' hmsgs' hjoin' hreasoning' hadded' =>
    -- the message that is joined was the last one before, or one that was added
    have hlast : ∀ {added : List ChatMsg} {parts : List (List Item)}, List.Forall₂ Holds (added ++ [last']) parts →
        ∃ parts₂, List.Forall₂ Holds (added ++ last'' :: added') parts₂ ∧
          parts₂.flatten = parts.flatten ++ (joined' ++ parts'.flatten) := by
      intro added parts hparts
      obtain ⟨parts₀, part, rfl, h₀, hpart⟩ := forall₂_concat hparts
      refine ⟨parts₀ ++ (part ++ joined') :: parts', List.rel_append h₀ (.cons (hjoin' part hpart) hadded'), ?_⟩
      simp
    cases h with
    | @push added parts hadded =>
      rcases append_eq_concat hmsgs' with ⟨rfl, heq⟩ | ⟨added₀, rfl, rfl⟩
      · cases hadded
        exact Extends.join heq hjoin' hreasoning' hadded'
      · obtain ⟨parts₂, hparts₂, hflatten⟩ := hlast hadded
        rw [← hflatten, List.append_assoc]
        exact Extends.push hparts₂
    | @join init added last₁ last₂ joined parts hmsgs hjoin hreasoning hadded =>
      rw [← List.singleton_append, ← List.append_assoc] at hmsgs'
      rcases append_eq_concat hmsgs' with ⟨rfl, heq⟩ | ⟨added₀, rfl, rfl⟩
      · cases hadded
        obtain ⟨rfl, hlast₂⟩ := List.append_inj' heq rfl
        obtain rfl := List.singleton_inj.1 hlast₂
        have hjoined : ∀ part, Holds last₁ part → Holds last'' (part ++ (joined ++ joined')) := by
          intro part hpart
          rw [← List.append_assoc]
          exact hjoin' _ (hjoin part hpart)
        have hkeep : last₁.reasoning ≠ [] → last''.reasoning = last₁.reasoning := by
          intro hne
          have h₂ := hreasoning hne
          rw [hreasoning' (by rwa [h₂]), h₂]
        have h := Extends.join hmsgs hjoined hkeep hadded'
        simpa using h
      · obtain ⟨parts₂, hparts₂, hflatten⟩ := hlast hadded
        have h := Extends.join hmsgs hjoin hreasoning hparts₂
        rw [hflatten] at h
        simpa using h

/-- The parts of a longer list. -/
theorem Extends.inOrder {items : List Item} (h : Extends msgs msgs' held) (hmsgs : InOrder msgs items)
    (hheld : held = shown held') : InOrder msgs' (items ++ held') := by
  obtain ⟨parts, hparts, hflatten⟩ := hmsgs
  have hshown : shown (items ++ held') = parts.flatten ++ held := by
    rw [hflatten, hheld]
    exact List.filter_append _ _
  rw [InOrder, hshown]
  cases h with
  | push hadded => exact ⟨_, List.rel_append hparts hadded, List.flatten_append⟩
  | join hmsgs hjoin _ hadded =>
    subst hmsgs
    obtain ⟨parts₀, part, rfl, h₀, hpart⟩ := forall₂_concat hparts
    refine ⟨_, List.rel_append h₀ (.cons (hjoin part hpart) hadded), ?_⟩
    simp

/-- What was the last message stays where it is, and keeps its reasoning. -/
theorem Extends.behind {m : ChatMsg} {part : List Item} (h : Extends (msgs ++ [m]) msgs' held) (hm : Holds m part) :
    ∃ m' part₂ msgs₂ parts₂, msgs' = msgs ++ m' :: msgs₂ ∧ (m.reasoning ≠ [] → m'.reasoning = m.reasoning) ∧
      Holds m' (part ++ part₂) ∧ List.Forall₂ Holds msgs₂ parts₂ ∧ part₂ ++ parts₂.flatten = held := by
  cases h with
  | push hadded =>
    refine ⟨m, [], _, _, ?_, fun _ => rfl, ?_, hadded, rfl⟩
    · rw [List.append_assoc, List.singleton_append]
    · rwa [List.append_nil]
  | join hmsgs hjoin hreasoning hadded =>
    obtain ⟨rfl, hlast⟩ := List.append_inj' hmsgs rfl
    obtain rfl := List.singleton_inj.1 hlast
    exact ⟨_, _, _, _, rfl, hreasoning, hjoin part hm, hadded, rfl⟩

/-! ### One turn -/

variable {i : Item} {items items' : List Item} {s s' s'' : ParseState O}

theorem reasonings_append (msgs msgs' : List ChatMsg) :
    reasonings (msgs ++ msgs') = reasonings msgs ++ reasonings msgs' := by
  simp [reasonings, nonempty]

theorem shown_append (items items' : List Item) : shown (items ++ items') = shown items ++ shown items' :=
  List.filter_append _ _

theorem reasoningTexts_append (items items' : List Item) :
    reasoningTexts (items ++ items') = reasoningTexts items ++ reasoningTexts items' := by
  simp [reasoningTexts, nonempty]

theorem nonempty_nil_cons : nonempty [[]] = [] := rfl

theorem shown_singleton (h : i.isShown = true) : shown [i] = [i] := by
  simp [shown, h]

theorem not_shown_singleton (h : i.isShown = false) : shown [i] = [] := by
  simp [shown, h]

theorem reasoningTexts_singleton (h : i.kind ≠ .reasoning) : reasoningTexts [i] = [] := by
  simp [reasoningTexts, nonempty, h]

/-- From one state to another the messages got longer by the items, and so did the reasoning, with what waits. -/
structure Grows (s s' : ParseState O) (items : List Item) : Prop where
  msgs : Extends s.msgs s'.msgs (shown items)
  reasoning : reasonings s'.msgs ++ nonempty [s'.pendingReasoning] =
    reasonings s.msgs ++ nonempty [s.pendingReasoning] ++ reasoningTexts items

theorem Grows.refl (s : ParseState O) : Grows s s [] :=
  ⟨Extends.refl _, by rw [show reasoningTexts [] = [] from rfl, List.append_nil]⟩

theorem Grows.trans (h : Grows s s' items) (h' : Grows s' s'' items') : Grows s s'' (items ++ items') := by
  constructor
  · rw [shown_append]
    exact h.msgs.trans h'.msgs
  · rw [h'.reasoning, h.reasoning, reasoningTexts_append, List.append_assoc]

/-- A state with the same messages and the same reasoning that waits. -/
theorem Grows.of_eq (hmsgs : s'.msgs = s.msgs) (hpending : s'.pendingReasoning = s.pendingReasoning) :
    Grows s s' [] := by
  have h := Grows.refl s
  constructor
  · rw [hmsgs]
    exact h.msgs
  · rw [hmsgs, hpending]
    exact h.reasoning

/-- One message is pushed. -/
theorem Grows.push {m : ChatMsg} (hmsgs : s'.msgs = s.msgs ++ [m]) (hm : Holds m (shown items))
    (hreasoning : nonempty [m.reasoning] ++ nonempty [s'.pendingReasoning] =
      nonempty [s.pendingReasoning] ++ reasoningTexts items) : Grows s s' items := by
  constructor
  · have h : Extends s.msgs (s.msgs ++ [m]) [shown items].flatten := Extends.push (.cons hm .nil)
    rw [hmsgs]
    simpa using h
  · rw [hmsgs, reasonings_append, List.append_assoc, List.append_assoc, ← hreasoning]
    rfl

theorem flush_pending (s : ParseState O) : s.flush.pendingReasoning = [] := by
  unfold ParseState.flush
  split_ifs with h
  · exact h
  · rfl

theorem flush_grows (s : ParseState O) : Grows s s.flush [] := by
  unfold ParseState.flush
  split_ifs with h
  · exact Grows.refl s
  · exact Grows.push rfl (Holds.alone _) rfl

theorem pushMessage_grows (s : ParseState O) (hi : i.kind = .message) :
    Grows s (s.pushMessage i.roleText (i.content.getD [])) [i] := by
  have hshown : shown [i] = [i] := shown_singleton (by simp [Item.isShown, hi])
  have htexts : reasoningTexts [i] = [] := reasoningTexts_singleton (by simp [hi])
  unfold ParseState.pushMessage
  split_ifs with hrole
  · refine Grows.push rfl ?_ ?_
    · rw [hshown]
      exact Holds.message hi (Or.inl hrole)
    · rw [htexts]
      rfl
  · refine Grows.push rfl ?_ ?_
    · rw [hshown]
      exact Holds.message hi (Or.inr rfl)
    · rw [htexts, List.append_nil]
      rfl

theorem pushOutput_grows (s : ParseState O) (hi : i.isOutput = true) (hkind : i.kind ≠ .reasoning) :
    Grows s (s.pushOutput i.outputText i.outputIds) [i] := by
  refine Grows.push rfl ?_ ?_
  · rw [shown_singleton (by simp [Item.isShown, hi])]
    exact Holds.output hi
  · rw [reasoningTexts_singleton hkind, List.append_nil]
    rfl

/-- A call joins the last message or starts one; the reasoning that waits goes there, unless it has its own. -/
theorem pushCall_cases (s : ParseState O) (tc : ToolCall) :
    (∃ init last, s.msgs = init ++ [last] ∧ last.role = lit "assistant" ∧
      if s.pendingReasoning ≠ [] ∧ last.reasoning = [] then
        (s.pushCall tc).pendingReasoning = [] ∧ (s.pushCall tc).msgs =
          init ++ [{ last with reasoning := s.pendingReasoning, calls := last.calls ++ [tc] }]
      else
        (s.pushCall tc).pendingReasoning = s.pendingReasoning ∧ (s.pushCall tc).msgs =
          init ++ [{ last with reasoning := last.reasoning, calls := last.calls ++ [tc] }]) ∨
    (s.pushCall tc).pendingReasoning = [] ∧
      (s.pushCall tc).msgs = s.msgs ++ [⟨lit "assistant", [], s.pendingReasoning, [], [tc]⟩] := by
  unfold ParseState.pushCall
  rcases List.eq_nil_or_concat s.msgs with hnil | ⟨init, last, hmsgs⟩
  · rw [hnil]
    exact Or.inr ⟨rfl, rfl⟩
  · rw [List.concat_eq_append] at hmsgs
    rw [hmsgs, List.getLast?_concat, List.dropLast_concat]
    dsimp only
    by_cases hrole : last.role = lit "assistant"
    · refine Or.inl ⟨init, last, rfl, hrole, ?_⟩
      rw [if_pos hrole]
      split_ifs
      · exact ⟨rfl, rfl⟩
      · exact ⟨rfl, rfl⟩
    · rw [if_neg hrole]
      exact Or.inr ⟨rfl, rfl⟩

theorem pushCall_grows (s : ParseState O) (hi : i.isCall = true) (hkind : i.kind ≠ .reasoning) :
    Grows s (s.pushCall i.toolCall) [i] := by
  have hshown : shown [i] = [i] := shown_singleton (by simp [Item.isShown, hi])
  have htexts : reasoningTexts [i] = [] := reasoningTexts_singleton hkind
  rcases pushCall_cases s i.toolCall with ⟨init, last, hmsgs, hrole, hcases⟩ | ⟨hpending, hmsgs⟩
  · have hjoin : ∀ reasoning : Bytes, (last.reasoning ≠ [] → reasoning = last.reasoning) →
        Extends s.msgs (init ++ [{ last with reasoning := reasoning, calls := last.calls ++ [i.toolCall] }]) [i] := by
      intro reasoning hkeep
      exact Extends.join hmsgs (fun part hpart => hpart.join hrole hi reasoning) hkeep .nil
    split_ifs at hcases with hmove
    · -- the reasoning that waits is that of the last message now
      obtain ⟨hpending', hmsgs'⟩ := hcases
      obtain ⟨hpending, hlast⟩ := hmove
      constructor
      · rw [hshown, hmsgs']
        exact hjoin _ fun hne => absurd hlast hne
      · rw [hmsgs', hpending', hmsgs, htexts, reasonings_append, reasonings_append]
        simp [reasonings, nonempty, hlast]
    · obtain ⟨hpending', hmsgs'⟩ := hcases
      constructor
      · rw [hshown, hmsgs']
        exact hjoin _ fun _ => rfl
      · rw [hmsgs', hpending', hmsgs, htexts, reasonings_append, reasonings_append, List.append_nil]
        rfl
  · refine Grows.push hmsgs ?_ ?_
    · rw [hshown]
      exact Holds.call _ hi
    · rw [hpending, htexts]
      rfl

theorem stash_grows (hi : i.kind = .reasoning) (hpending : s.pendingReasoning = []) :
    Grows s (s.stash (i.summary.getD []) (i.content.getD [])) [i] ∧
      (s.stash (i.summary.getD []) (i.content.getD [])).pendingReasoning = i.reasoningText := by
  have hshown : shown [i] = [] := not_shown_singleton (by simp [Item.isShown, Item.isCall, Item.isOutput, hi])
  have htext : (s.stash (i.summary.getD []) (i.content.getD [])).pendingReasoning = i.reasoningText := by
    unfold ParseState.stash Item.reasoningText
    dsimp only
    rw [hpending]
    by_cases hsummary : i.summary.getD [] = []
    · by_cases hcontent : i.content.getD [] = []
      · simp [hsummary, hcontent]
      · simp [hsummary, hcontent]
    · by_cases hcontent : i.content.getD [] = []
      · simp [hsummary, hcontent]
      · simp [hsummary, hcontent]
  refine ⟨⟨?_, ?_⟩, htext⟩
  · rw [hshown]
    exact Extends.refl _
  · rw [htext, hpending, nonempty_nil_cons, List.append_nil]
    have htexts : reasoningTexts [i] = nonempty [i.reasoningText] := by simp [reasoningTexts, hi]
    rw [htexts]
    rfl

section Turn

variable {parseToolsValue : Bytes → O → Option (Bytes × O)}

theorem loadTools_spec (h : loadTools parseToolsValue s i = some s') :
    s'.msgs = s.msgs ∧ s'.pendingReasoning = s.pendingReasoning := by
  unfold loadTools at h
  split at h
  · obtain ⟨⟨schemas, orders⟩, -, rfl⟩ := Option.map_eq_some_iff.1 h
    by_cases hschemas : schemas = []
    · simp [hschemas]
    · simp [hschemas]
  · obtain rfl := Option.some.inj h
    exact ⟨rfl, rfl⟩

/-- What a turn can do. -/
theorem readItem_cases (h : readItem parseToolsValue s i = some s') :
    (i.kind = .message ∧ s' = s.pushMessage i.roleText (i.content.getD [])) ∨
    (i.isCall = true ∧ i.kind ≠ .reasoning ∧ s' = s.pushCall i.toolCall) ∨
    (i.isOutput = true ∧ i.kind ≠ .reasoning ∧ ∃ t : ParseState O, t.msgs = s.msgs ∧
      t.pendingReasoning = s.pendingReasoning ∧ s' = t.pushOutput i.outputText i.outputIds) ∨
    (i.kind = .reasoning ∧ s' = s.stash (i.summary.getD []) (i.content.getD [])) ∨
    (i.isBookkeeping = true ∧ i.kind ≠ .reasoning ∧ i.isShown = false ∧ s' = s) := by
  unfold readItem at h
  unfold Item.isShown Item.isCall Item.isOutput Item.isBookkeeping
  cases hk : i.kind <;> rw [hk] at h
  case message => exact Or.inl ⟨rfl, (Option.some.inj h).symm⟩
  case functionCall | customToolCall | localShellCall | webSearchCall | toolSearchCall | imageGenerationCall =>
    exact Or.inr (Or.inl ⟨rfl, nofun, (Option.some.inj h).symm⟩)
  case functionCallOutput | customToolCallOutput =>
    exact Or.inr (Or.inr (Or.inl ⟨rfl, nofun, s, rfl, rfl, (Option.some.inj h).symm⟩))
  case reasoning => exact Or.inr (Or.inr (Or.inr (Or.inl ⟨rfl, (Option.some.inj h).symm⟩)))
  case localShellCallOutput | webSearchCallOutput | toolSearchOutput | toolSearchCallOutput |
      imageGenerationCallOutput =>
    obtain ⟨t, ht, rfl⟩ := Option.map_eq_some_iff.1 h
    exact Or.inr (Or.inr (Or.inl ⟨rfl, nofun, t, (loadTools_spec ht).1, (loadTools_spec ht).2, rfl⟩))
  case compaction | contextCompaction =>
    exact Or.inr (Or.inr (Or.inr (Or.inr ⟨rfl, nofun, rfl, (Option.some.inj h).symm⟩)))
  case other => cases h

theorem turnStart_grows (s : ParseState O) (i : Item) : Grows s (turnStart s i) [] := by
  unfold turnStart
  split_ifs
  · exact flush_grows s
  · exact Grows.refl s

theorem stepItem_grows (h : stepItem parseToolsValue s i = some s') : Grows s s' [i] := by
  unfold stepItem at h
  split_ifs at h
  refine (turnStart_grows s i).trans ?_
  rcases readItem_cases h with ⟨hi, rfl⟩ | ⟨hi, hkind, rfl⟩ | ⟨hi, hkind, t, hmsgs, hpending, rfl⟩ | ⟨hi, rfl⟩ |
      ⟨-, hkind, hshown, rfl⟩
  · exact pushMessage_grows _ hi
  · exact pushCall_grows _ hi hkind
  · exact (Grows.of_eq hmsgs hpending).trans (pushOutput_grows t hi hkind)
  · refine (stash_grows hi ?_).1
    unfold turnStart
    rw [if_pos]
    · exact flush_pending s
    · simp [Item.consumesReasoning, Item.isAssistantMessage, Item.isCall, Item.isBookkeeping, hi]
  · have hrefl := Grows.refl (turnStart s i)
    constructor
    · rw [not_shown_singleton hshown]
      exact hrefl.msgs
    · rw [reasoningTexts_singleton hkind]
      exact hrefl.reasoning

theorem runItems_grows (h : runItems parseToolsValue s items = some s') : Grows s s' items := by
  induction items generalizing s with
  | nil =>
    obtain rfl := Option.some.inj h
    exact Grows.refl s
  | cons i items ih =>
    obtain ⟨t, ht, hrest⟩ := Option.bind_eq_some_iff.1 h
    exact (stepItem_grows ht).trans (ih hrest)

theorem runItems_append (items items' : List Item) (s : ParseState O) :
    runItems parseToolsValue s (items ++ items') =
      (runItems parseToolsValue s items).bind fun t => runItems parseToolsValue t items' :=
  List.foldlM_append

/-- A reasoning waits, alone. -/
theorem stepItem_reasoning (hi : i.kind = .reasoning) (h : stepItem parseToolsValue s i = some s') :
    s'.msgs = s.flush.msgs ∧ s'.pendingReasoning = i.reasoningText := by
  have hstart : turnStart s i = s.flush := if_pos (by
    simp [Item.consumesReasoning, Item.isAssistantMessage, Item.isCall, Item.isBookkeeping, hi])
  unfold stepItem readItem at h
  split_ifs at h
  rw [hstart, hi] at h
  obtain rfl := Option.some.inj h
  exact ⟨rfl, (stash_grows hi (flush_pending s)).2⟩

theorem runItems_bookkeeping (hitems : ∀ i ∈ items, i.isBookkeeping = true)
    (h : runItems parseToolsValue s items = some s') : s' = s := by
  induction items generalizing s with
  | nil => exact (Option.some.inj h).symm
  | cons i items ih =>
    obtain ⟨t, ht, hrest⟩ := Option.bind_eq_some_iff.1 h
    have hi := hitems i List.mem_cons_self
    rw [ih (fun j hj => hitems j (List.mem_cons_of_mem i hj)) hrest]
    have hstart : turnStart s i = s := if_neg (by simp [hi])
    unfold stepItem readItem at ht
    split_ifs at ht
    rw [hstart] at ht
    rcases (Bool.or_eq_true _ _).mp hi with hk | hk
    · rw [beq_iff_eq.1 hk] at ht
      exact (Option.some.inj ht).symm
    · rw [beq_iff_eq.1 hk] at ht
      exact (Option.some.inj ht).symm

/-- An assistant message takes what waits. -/
theorem stepItem_assistantMessage (hi : i.isAssistantMessage) (h : stepItem parseToolsValue s i = some s') :
    s'.msgs = s.msgs ++ [⟨i.roleText, i.content.getD [], s.pendingReasoning, [], []⟩] := by
  have hstart : turnStart s i = s := if_neg (by simp [Item.consumesReasoning, hi])
  have hrole : i.roleText = lit "assistant" := by
    unfold Item.roleText
    rw [hi.2]
    rfl
  unfold stepItem readItem at h
  split_ifs at h
  rw [hstart, hi.1] at h
  obtain rfl := Option.some.inj h
  unfold ParseState.pushMessage
  rw [if_pos hrole]

theorem stepItem_call (hi : i.isCall = true) (h : stepItem parseToolsValue s i = some s') :
    s' = s.pushCall i.toolCall := by
  have hstart : turnStart s i = s := if_neg (by simp [Item.consumesReasoning, hi])
  unfold stepItem at h
  split_ifs at h
  rw [hstart] at h
  unfold Item.isCall at hi
  unfold readItem at h
  cases hk : i.kind <;> rw [hk] at h hi
  all_goals first
    | exact (Option.some.inj h).symm
    | cases hi

/-- What waits is flushed before the message of any other item that is shown. -/
theorem stepItem_flushes (hconsumes : i.consumesReasoning = false) (hbook : i.isBookkeeping = false)
    (hkind : i.kind ≠ .reasoning) (h : stepItem parseToolsValue s i = some s') :
    i.isShown = true ∧ ∃ m, s'.msgs = s.flush.msgs ++ [m] ∧ Holds m [i] := by
  have hstart : turnStart s i = s.flush := if_pos (by simp [hconsumes, hbook])
  unfold stepItem at h
  split_ifs at h
  rw [hstart] at h
  rcases readItem_cases h with ⟨hi, rfl⟩ | ⟨hi, -, -⟩ | ⟨hi, -, t, hmsgs, -, rfl⟩ | ⟨hi, -⟩ | ⟨hi, -⟩
  · refine ⟨by simp [Item.isShown, hi], ?_⟩
    unfold ParseState.pushMessage
    split_ifs with hrole
    · exact ⟨_, rfl, Holds.message hi (Or.inl hrole)⟩
    · exact ⟨_, rfl, Holds.message hi (Or.inr rfl)⟩
  · rw [Item.consumesReasoning, hi, Bool.or_true] at hconsumes
    exact absurd hconsumes (by decide)
  · refine ⟨by simp [Item.isShown, hi], _, ?_, Holds.output hi⟩
    unfold ParseState.pushOutput
    rw [hmsgs]
  · exact absurd hi hkind
  · exact absurd (hi.symm.trans hbook) (by decide)

/-! ### Whole inputs -/

variable {orders : O} {r : Item} {before book behind : List Item}

/-- A call behind the items starts a message, or joins one that has no reasoning yet. -/
def OpenToReasoning (parseToolsValue : Bytes → O → Option (Bytes × O)) (orders : O) (items : List Item) : Prop :=
  ∀ s, runItems parseToolsValue ⟨[], [], [], orders⟩ items = some s →
    ∀ last ∈ s.msgs.getLast?, last.role = lit "assistant" → last.reasoning = []

theorem inOrder_nil : InOrder [] [] := ⟨[], List.Forall₂.nil, rfl⟩

theorem runItems_inOrder (h : runItems parseToolsValue ⟨[], [], [], orders⟩ items = some s) :
    InOrder s.msgs items :=
  (runItems_grows h).msgs.inOrder inOrder_nil rfl

/-- The run up to a reasoning that waits, with the bookkeeping behind it. -/
theorem runItems_reasoning (hr : r.kind = .reasoning) (hbook : ∀ b ∈ book, b.isBookkeeping = true)
    (h : runItems parseToolsValue ⟨[], [], [], orders⟩ (before ++ r :: (book ++ behind)) = some s) :
    ∃ t, runItems parseToolsValue ⟨[], [], [], orders⟩ (before ++ [r]) = some t ∧ InOrder t.msgs before ∧
      t.pendingReasoning = r.reasoningText ∧ runItems parseToolsValue t behind = some s := by
  rw [← List.singleton_append, ← List.append_assoc, runItems_append] at h
  obtain ⟨t, ht, hrest⟩ := Option.bind_eq_some_iff.1 h
  rw [runItems_append] at hrest
  obtain ⟨t', ht', hbehind⟩ := Option.bind_eq_some_iff.1 hrest
  obtain rfl := runItems_bookkeeping hbook ht'
  refine ⟨t', ht, ?_, ?_, hbehind⟩
  · have horder := runItems_inOrder ht
    unfold InOrder at horder ⊢
    rwa [shown_append, not_shown_singleton (by simp [Item.isShown, Item.isCall, Item.isOutput, hr]),
      List.append_nil] at horder
  · rw [runItems_append] at ht
    obtain ⟨u, -, hu⟩ := Option.bind_eq_some_iff.1 ht
    obtain ⟨u', hu', hnil⟩ := Option.bind_eq_some_iff.1 hu
    obtain rfl := Option.some.inj hnil
    exact (stepItem_reasoning hr hu').2

/-- The item that takes what waits. -/
theorem stepItem_takes (horder : InOrder s.msgs before) (hne : s.pendingReasoning ≠ [])
    (hi : i.isAssistantMessage ∨ i.isCall = true ∧
      ∀ last ∈ s.msgs.getLast?, last.role = lit "assistant" → last.reasoning = [])
    (h : stepItem parseToolsValue s i = some s') :
    ∃ msgs₁ m parts₁ part₁, s'.msgs = msgs₁ ++ [m] ∧ m.reasoning = s.pendingReasoning ∧
      List.Forall₂ Holds msgs₁ parts₁ ∧ Holds m (part₁ ++ [i]) ∧ parts₁.flatten ++ part₁ = shown before := by
  obtain ⟨parts, hparts, hflatten⟩ := horder
  rcases hi with hi | ⟨hi, hopen⟩
  · refine ⟨_, _, parts, [], stepItem_assistantMessage hi h, rfl, hparts, Holds.message hi.1 (Or.inl ?_), ?_⟩
    · unfold Item.roleText
      rw [hi.2]
      rfl
    · rwa [List.append_nil]
  · obtain rfl := stepItem_call hi h
    rcases pushCall_cases s i.toolCall with ⟨init, last, hmsgs, hrole, hcases⟩ | ⟨-, hmsgs⟩
    · have hlast : last.reasoning = [] := by
        refine hopen last ?_ hrole
        rw [hmsgs, List.getLast?_concat]
        rfl
      rw [if_pos ⟨hne, hlast⟩] at hcases
      rw [hmsgs] at hparts
      obtain ⟨parts₀, part, rfl, h₀, hpart⟩ := forall₂_concat hparts
      refine ⟨init, _, parts₀, part, hcases.2, rfl, h₀, hpart.join hrole hi _, ?_⟩
      rw [← hflatten, List.flatten_append, List.flatten_singleton]
    · exact ⟨_, _, parts, [], hmsgs, rfl, hparts, Holds.call _ hi, by rwa [List.append_nil]⟩

/-- **Every accepted list** gives messages made of its messages, calls and outputs, each once and in order, with the
    reasoning of its reasoning items, each once and in order.  A reasoning is in the message of the assistant message
    behind it, or of the call behind it if that starts a message or joins one without reasoning; before anything else,
    and at the end, it is in a message of its own. -/
theorem responses_input_keeps_order (h : parseResponsesInput parseToolsValue orders items = some s) :
    InOrder s.msgs items ∧ reasonings s.msgs = reasoningTexts items ∧
    (∀ before r book i behind, items = before ++ r :: (book ++ i :: behind) → r.kind = .reasoning →
      r.reasoningText ≠ [] → (∀ b ∈ book, b.isBookkeeping = true) →
      i.isAssistantMessage ∨ i.isCall = true ∧ OpenToReasoning parseToolsValue orders (before ++ [r]) →
      Attached s.msgs before r.reasoningText i behind) ∧
    (∀ before r book behind, items = before ++ r :: (book ++ behind) → r.kind = .reasoning →
      r.reasoningText ≠ [] → (∀ b ∈ book, b.isBookkeeping = true) →
      (∀ i ∈ behind.head?, i.consumesReasoning = false ∧ i.isBookkeeping = false ∧ i.kind ≠ .reasoning) →
      Alone s.msgs before r.reasoningText behind) := by
  obtain ⟨t, ht, rfl⟩ := Option.map_eq_some_iff.1 h
  have hgrows : Grows ⟨[], [], [], orders⟩ t.flush items := by
    have hall := (runItems_grows ht).trans (flush_grows t)
    rwa [List.append_nil] at hall
  refine ⟨hgrows.msgs.inOrder inOrder_nil rfl, ?_, ?_, ?_⟩
  · have hreasoning := hgrows.reasoning
    rw [flush_pending, nonempty_nil_cons, List.append_nil] at hreasoning
    exact hreasoning
  · rintro before r book i behind rfl hr hne hbook hi
    obtain ⟨u, hu, horder, hpending, hrest⟩ := runItems_reasoning hr hbook ht
    obtain ⟨u', hu', hbehind⟩ := Option.bind_eq_some_iff.1 hrest
    rw [← hpending] at hne
    obtain ⟨msgs₁, m, parts₁, part₁, hmsgs, hm, hparts₁, hholds, hflatten⟩ :=
      stepItem_takes horder hne (hi.imp_right fun hcall => ⟨hcall.1, hcall.2 u hu⟩) hu'
    -- the message keeps its place and its reasoning to the end
    have hext := ((runItems_grows hbehind).trans (flush_grows t)).msgs
    rw [hmsgs, List.append_nil] at hext
    obtain ⟨m', part₂, msgs₂, parts₂, heq, hkeep, hholds', hparts₂, hflatten₂⟩ := hext.behind hholds
    refine ⟨msgs₁, m', msgs₂, parts₁, part₁, part₂, parts₂, heq, ?_, hparts₁, ?_, hparts₂, hflatten, hflatten₂⟩
    · rw [hkeep (by rwa [hm]), hm, hpending]
    · rwa [List.append_assoc, List.singleton_append] at hholds'
  · rintro before r book behind rfl hr hne hbook hhead
    obtain ⟨u, -, horder, hpending, hrest⟩ := runItems_reasoning hr hbook ht
    have hflush : u.flush.msgs = u.msgs ++ [⟨lit "assistant", [], r.reasoningText, [], []⟩] := by
      unfold ParseState.flush
      rw [hpending, if_neg hne]
    cases behind with
    | nil =>
      obtain rfl := Option.some.inj hrest
      exact ⟨u.msgs, [], hflush, horder, inOrder_nil⟩
    | cons i behind =>
      obtain ⟨u', hu', hbehind⟩ := Option.bind_eq_some_iff.1 hrest
      obtain ⟨hconsumes, hnotbook, hkind⟩ := hhead i rfl
      obtain ⟨hshown, m, hmsgs, hm⟩ := stepItem_flushes hconsumes hnotbook hkind hu'
      have hext := ((runItems_grows hbehind).trans (flush_grows t)).msgs
      rw [hmsgs, List.append_nil] at hext
      obtain ⟨m', part₂, msgs₂, parts₂, heq, -, hholds', hparts₂, hflatten₂⟩ := hext.behind hm
      refine ⟨u.msgs, m' :: msgs₂, ?_, horder, ([i] ++ part₂) :: parts₂, .cons hholds' hparts₂, ?_⟩
      · rw [heq, hflush, List.append_assoc, List.singleton_append]
      · have hcons : shown (i :: behind) = i :: shown behind := List.filter_cons_of_pos hshown
        rw [hcons, ← hflatten₂, List.flatten_cons, List.append_assoc, List.singleton_append]

end Turn

/-! ### Samples -/

/-- An item of a type, with nothing else. -/
def bareItem (type : String) : Item :=
  ⟨some (lit type), none, none, none, none, none, none, none, none, none, none, none, none, none, none⟩

def userItem : Item := { bareItem "message" with role := some (lit "user"), content := some (lit "hi") }

def reasoningItem : Item := { bareItem "reasoning" with summary := some (lit "why") }

def callItem : Item := { bareItem "function_call" with name := some (lit "ls"), callId := some (lit "c1") }

def outputItem : Item :=
  { bareItem "function_call_output" with callId := some (lit "c1"), output := some (lit "a.txt") }

def answerItem : Item := { bareItem "message" with role := some (lit "assistant"), content := some (lit "ok") }

/-- No tools are loaded. -/
def noTools : Bytes → Unit → Option (Bytes × Unit) := fun _ _ => none

def sampleItems : List Item := [userItem, reasoningItem, callItem, outputItem, reasoningItem, answerItem]

theorem responses_input_keeps_order_sample : ∃ s, parseResponsesInput noTools () sampleItems = some s ∧
    InOrder s.msgs sampleItems ∧ reasonings s.msgs = [lit "why", lit "why"] ∧
    Attached s.msgs [userItem] (lit "why") callItem [outputItem, reasoningItem, answerItem] := by
  obtain ⟨s, hs⟩ : ∃ s, parseResponsesInput noTools () sampleItems = some s := ⟨_, rfl⟩
  obtain ⟨horder, hreasoning, hattached, -⟩ := responses_input_keeps_order hs
  have hopen : OpenToReasoning noTools () ([userItem] ++ [reasoningItem]) := by
    intro t ht last hlast hrole
    obtain rfl := Option.some.inj ht
    obtain rfl := Option.some.inj hlast
    rfl
  refine ⟨s, hs, horder, hreasoning, ?_⟩
  exact hattached [userItem] reasoningItem [] callItem _ rfl rfl (by decide) (fun _ hb => nomatch hb)
    (Or.inr ⟨rfl, hopen⟩)

/-- Every call of a message is answered by the outputs right behind it. -/
def CallsAnswered (msgs : List ChatMsg) : Prop :=
  ∀ msgs₁ m msgs₂, msgs = msgs₁ ++ m :: msgs₂ →
    ∀ c ∈ m.calls, ∃ o ∈ msgs₂.takeWhile (fun o => o.role = lit "tool"), c.id ∈ o.toolCallIds

/-- A call without an output is accepted, and a reasoning before a user message is not that of the answer behind it. -/
theorem not_responses_input_keeps_order :
    (∃ s, parseResponsesInput noTools () [callItem, userItem] = some s ∧ ¬ CallsAnswered s.msgs) ∧
    (∃ s, parseResponsesInput noTools () [reasoningItem, userItem, answerItem] = some s ∧
      ∀ m ∈ s.msgs, m.content = lit "ok" → m.reasoning = []) := by
  refine ⟨⟨_, rfl, fun h => ?_⟩, ⟨_, rfl, ?_⟩⟩
  · -- the user message ends the outputs before there is one
    obtain ⟨o, ho, -⟩ := h [] _ _ rfl _ (List.mem_singleton.2 rfl)
    have hnil : o ∈ ([] : List ChatMsg) := ho
    cases hnil
  · decide

end DS4.Server.Responses
