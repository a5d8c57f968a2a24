import DS4.Server.ToolMemoryRun

namespace DS4.Server

/-!
# Server — exact replay

A client sends back its calls with their ids; when the ids of a message are remembered for one
block, the block is replayed in the place of the calls.

* `replayed` — what an attach makes of a message, as a function of the memory before it;
  `attachLoop_eq_map` is the loop.
* `Turn`, `ReplayOp` — the turns the memory was filled from, and the history of a server.
* `Corresponds` — the calls of a block are the calls of a message, one by one.
* `attach_exact_iff` — when every block that is replayed corresponds to its message.
-/

open DS4.Lib

namespace ToolMemory

/-- The text that is remembered for an id. -/
def textOf (m : ToolMemory) (id : Bytes) : Option Bytes := (m.findEntry id).bind m.blockText

/-- All the ids are remembered for one block. -/
def NamesBlock (m : ToolMemory) (ids : List Bytes) (dsml : Bytes) : Prop :=
  ids ≠ [] ∧ ∀ id ∈ ids, m.textOf id = some dsml

instance (m : ToolMemory) (ids : List Bytes) (dsml : Bytes) : Decidable (m.NamesBlock ids dsml) :=
  inferInstanceAs (Decidable (_ ∧ _))

variable {m : ToolMemory} {ps : List (Bytes × Bytes)} {id dsml : Bytes}

theorem Holds.textOf (h : m.Holds ps) (id : Bytes) : m.textOf id = ps.lookup id := by
  obtain ⟨order, hrep, rfl⟩ := h
  unfold ToolMemory.textOf
  rw [hrep.lookup_eq]
  cases hf : m.findEntry id with
  | none => rfl
  | some a =>
    obtain ⟨e, blk, he, -, hb, -, hpair, -⟩ := hrep.lookup_some hf
    rw [Option.bind_some, Option.map_some, hpair]
    unfold blockText
    rw [he, Option.bind_some, hb, Option.map_some]

/-- What the loop over the calls of a message knows after the ids `ids`. -/
structure MatchInv (m : ToolMemory) (ps : List (Bytes × Bytes)) (ids : List Bytes) (t : Matching) :
    Prop where
  holds : ∃ ps', t.memory.Holds ps' ∧ ∀ j, ps'.lookup j = ps.lookup j
  byBlock : t.memory.byBlock = m.byBlock
  block : t.memory.block = m.block
  matched : t.matched = none → ∀ id ∈ ids, ps.lookup id = none
  first : ∀ b, t.matched = some b →
    ∃ id ∈ ids, ∃ d, ps.lookup id = some d ∧ m.byBlock.lookup d = some b
  exact : t.exact = true ↔
    ∀ id ∈ ids, ∃ d b, ps.lookup id = some d ∧ t.matched = some b ∧ m.byBlock.lookup d = some b

/-- **One call** of the message. -/
theorem MatchInv.call {ids : List Bytes} {t : Matching} (h : MatchInv m ps ids t)
    (id : Bytes) : MatchInv m ps (ids ++ [id]) (t.call id) := by
  obtain ⟨ps', hholds, hsame⟩ := h.holds
  obtain ⟨hbring, htext, hbyBlock, hblock, hfound⟩ := hholds.lookup id
  have hbringSame : ∀ j, (bring id ps').lookup j = ps.lookup j := fun j => by
    rw [lookup_bring, hsame]
  rw [hsame] at htext
  unfold Matching.call
  rcases hl : t.memory.lookup id with ⟨m', _ | ⟨source, block, text⟩⟩
  · -- the id is not remembered
    rw [hl] at hbring htext hbyBlock hblock
    have hnone : ps.lookup id = none := htext.symm
    refine ⟨⟨_, hbring, hbringSame⟩, hbyBlock.trans h.byBlock, hblock.trans h.block,
      fun hm i hi => ?_, fun b hb => ?_, ?_⟩
    · rcases List.mem_append.mp hi with hi | hi
      · exact h.matched hm i hi
      · rw [List.mem_singleton.mp hi, hnone]
    · obtain ⟨i, hi, hd⟩ := h.first b hb
      exact ⟨i, List.mem_append_left _ hi, hd⟩
    · refine ⟨fun hf => (by cases hf), fun hall => ?_⟩
      obtain ⟨d, b, hd, -⟩ := hall id (by simp)
      rw [hnone] at hd
      cases hd
  · rw [hl] at hbring htext hbyBlock hblock hfound
    have hsome : ps.lookup id = some text := htext.symm
    obtain ⟨hindex, -⟩ := hfound _ rfl
    rw [h.byBlock] at hindex
    refine ⟨⟨_, hbring, hbringSame⟩, hbyBlock.trans h.byBlock, hblock.trans h.block,
      fun hm => ?_, fun b hb => ?_, ?_⟩
    · cases ht : t.matched <;> simp [ht] at hm
    · dsimp only at hb
      cases ht : t.matched with
      | none =>
        rw [ht, Option.none_or] at hb
        exact ⟨id, by simp, text, hsome, by rw [hindex, hb]⟩
      | some b₀ =>
        rw [ht, Option.some_or] at hb
        obtain ⟨i, hi, hd⟩ := h.first b (ht.trans hb)
        exact ⟨i, List.mem_append_left _ hi, hd⟩
    · dsimp only
      rw [Bool.and_eq_true, h.exact, Bool.or_eq_true, decide_eq_true_eq, decide_eq_true_eq]
      cases ht : t.matched with
      | none =>
        -- the first id that is remembered fixes the block
        rw [Option.none_or]
        constructor
        · rintro ⟨hall, -⟩ i hi
          rcases List.mem_append.mp hi with hi | hi
          · obtain ⟨d, b, -, hb, -⟩ := hall i hi
            cases hb
          · exact ⟨text, block, by rw [List.mem_singleton.mp hi, hsome], rfl, hindex⟩
        · intro hall
          refine ⟨fun i hi => ?_, Or.inl rfl⟩
          obtain ⟨d, b, hd, -⟩ := hall i (List.mem_append_left _ hi)
          rw [h.matched ht i hi] at hd
          cases hd
      | some b₀ =>
        rw [Option.some_or]
        constructor
        · rintro ⟨hall, hor⟩ i hi
          have hb₀ : b₀ = block := by simpa using hor
          rcases List.mem_append.mp hi with hi | hi
          · exact hall i hi
          · exact ⟨text, b₀, by rw [List.mem_singleton.mp hi, hsome], rfl, by rw [hindex, hb₀]⟩
        · intro hall
          refine ⟨fun i hi => ?_, Or.inr ?_⟩
          · exact hall i (List.mem_append_left _ hi)
          · obtain ⟨d, b, hd, hb, hdb⟩ := hall id (by simp)
            rw [hsome] at hd
            rw [← Option.some.inj hd, hindex] at hdb
            rw [hb, hdb]

theorem MatchInv.start (h : m.Holds ps) : MatchInv m ps [] ⟨m, none, .disk, true, 0⟩ where
  holds := ⟨ps, h, fun _ => rfl⟩
  byBlock := rfl
  block := rfl
  matched := fun _ id hid => by cases hid
  first := fun b hb => by cases hb
  exact := ⟨fun _ id hid => (by cases hid), fun _ => rfl⟩

theorem matchCalls_inv (h : m.Holds ps) (ids : List Bytes) : MatchInv m ps ids (matchCalls m ids) := by
  have hfold : ∀ (l done : List Bytes) (t : Matching), MatchInv m ps done t →
      MatchInv m ps (done ++ l) (l.foldl Matching.call t) := by
    intro l
    induction l with
    | nil => exact fun done t ht => by rwa [List.append_nil]
    | cons id l ih =>
      intro done t ht
      have hrest := ih (done ++ [id]) _ (ht.call id)
      rwa [List.append_assoc] at hrest
  exact hfold ids [] _ (MatchInv.start h)

/-- The one block the ids are remembered for. -/
def blockNamed (m : ToolMemory) (ids : List Bytes) : Option Bytes :=
  (ids.head?.bind m.textOf).filter fun d => m.NamesBlock ids d

/-- What an attach makes of a message. -/
def replayed (m : ToolMemory) (calls : ReplayCalls) : ReplayCalls :=
  if calls.rawDsml = none then { calls with rawDsml := m.blockNamed calls.ids } else calls

theorem blockNamed_eq_some {ids : List Bytes} {d : Bytes} :
    m.blockNamed ids = some d ↔ m.NamesBlock ids d := by
  unfold blockNamed
  rw [Option.filter_eq_some_iff, decide_eq_true_eq]
  refine ⟨fun h => h.2, fun h => ⟨?_, h⟩⟩
  cases ids with
  | nil => exact absurd rfl h.1
  | cons id ids => exact h.2 id (List.mem_cons_self ..)

theorem blockNamed_congr {m' : ToolMemory} {ids : List Bytes} (h : ∀ j, m'.textOf j = m.textOf j) :
    m'.blockNamed ids = m.blockNamed ids := by
  refine Option.ext fun d => ?_
  rw [blockNamed_eq_some, blockNamed_eq_some]
  unfold NamesBlock
  simp only [h]

/-- **One message.** -/
theorem attachToMessage_eq (h : m.Holds ps) (stats : ToolReplayStats) (calls : ReplayCalls) :
    (attachToMessage m stats calls).2.2 = m.replayed calls := by
  unfold attachToMessage replayed
  by_cases hraw : calls.rawDsml = none
  · rw [if_pos hraw]
    by_cases hids : calls.ids = []
    · rw [if_pos (Or.inl hids)]
      have hnone : m.blockNamed calls.ids = none := by rw [hids]; rfl
      rw [hnone, ← hraw]
    · rw [if_neg (by simp [hids, hraw])]
      have hinv := matchCalls_inv h calls.ids
      dsimp only
      split
      · -- all the ids name one block
        rename_i blk hexact hmatched
        obtain ⟨b, hb, hblk⟩ := Option.bind_eq_some_iff.mp hmatched
        rw [hinv.block] at hblk
        have hnames : m.NamesBlock calls.ids blk.dsml := ⟨hids, fun i hi => by
          obtain ⟨d, b', hd, hb', hdb⟩ := hinv.exact.mp hexact i hi
          obtain rfl := Option.some.inj (hb.symm.trans hb')
          obtain ⟨order, hrep, -⟩ := id h
          obtain ⟨blk', hblk', hdsml⟩ := hrep.byBlock d b hdb
          rw [hblk] at hblk'
          rw [h.textOf, hd, ← hdsml, Option.some.inj hblk']⟩
        rw [(blockNamed_eq_some).mpr hnames]
      · rename_i hno
        have hnone : m.blockNamed calls.ids = none := by
          rw [Option.eq_none_iff_forall_ne_some]
          intro d hd
          obtain ⟨-, hall⟩ := (blockNamed_eq_some).mp hd
          obtain ⟨id, hid⟩ := List.exists_mem_of_ne_nil _ hids
          have htext : ∀ i ∈ calls.ids, ps.lookup i = some d := fun i hi => by
            rw [← h.textOf]
            exact hall i hi
          cases hm : (matchCalls m calls.ids).matched with
          | none =>
            have hnone := hinv.matched hm id hid
            rw [htext id hid] at hnone
            cases hnone
          | some b =>
            -- the block that was matched first has the text of all the ids
            obtain ⟨i, hi, d', hd', hdb⟩ := hinv.first b hm
            rw [htext i hi] at hd'
            obtain rfl := Option.some.inj hd'
            have hexact := hinv.exact.mpr fun j hj => ⟨d, b, htext j hj, hm, hdb⟩
            obtain ⟨order, hrep, -⟩ := h
            obtain ⟨blk, hblk, -⟩ := hrep.byBlock d b hdb
            refine hno blk hexact ?_
            rw [hm, Option.bind_some, hinv.block, hblk]
        rw [hnone, ← hraw]
  · rw [if_pos (Or.inr hraw), if_neg hraw]

/-- **The loop** over the messages. -/
theorem attachLoop_eq_map (h : m.Holds ps) (stats : ToolReplayStats) (msgs : List ReplayCalls) :
    (attachLoop m stats msgs).2.2 = msgs.map m.replayed := by
  have hloop : ∀ (m' : ToolMemory) (ps' : List (Bytes × Bytes)) (stats : ToolReplayStats),
      m'.Holds ps' → (∀ j, ps'.lookup j = ps.lookup j) →
      (attachLoop m' stats msgs).2.2 = msgs.map m.replayed := by
    induction msgs with
    | nil => exact fun m' ps' stats _ _ => rfl
    | cons calls msgs ih =>
      intro m' ps' stats h' hsame
      unfold attachLoop
      dsimp only
      have hreplayed : m'.replayed calls = m.replayed calls := by
        have hnamed : m'.blockNamed calls.ids = m.blockNamed calls.ids := blockNamed_congr fun j => by
          rw [h'.textOf, h.textOf, hsame]
        unfold replayed
        rw [hnamed]
      have hlookups : ∀ (ids : List Bytes) (m₁ : ToolMemory) (ps₁ : List (Bytes × Bytes)),
          m₁.Holds ps₁ → (∀ j, ps₁.lookup j = ps.lookup j) →
          ∃ ps₂, (ids.foldl (fun m id => (m.lookup id).1) m₁).Holds ps₂ ∧
            ∀ j, ps₂.lookup j = ps.lookup j := by
        intro ids
        induction ids with
        | nil => exact fun m₁ ps₁ h₁ hs₁ => ⟨ps₁, h₁, hs₁⟩
        | cons id ids ih =>
          intro m₁ ps₁ h₁ hs₁
          refine ih _ _ (h₁.lookup id).1 fun j => ?_
          rw [lookup_bring, hs₁]
      obtain ⟨ps₂, h₂, hs₂⟩ := hlookups (attachIds [calls]) m' ps' h' hsame
      rw [List.map_cons, attachToMessage_eq h', hreplayed]
      rw [← attachToMessage_memory m' stats calls] at h₂
      rw [ih _ ps₂ _ h₂ hs₂]
  exact hloop m ps stats h fun _ => rfl

end ToolMemory

/-! ### Histories -/

/-- A generated turn: the ids of its calls, and the block they were sampled in. -/
structure Turn where
  ids : List Bytes
  rawDsml : Bytes
  deriving DecidableEq

/-- What the memory is filled from, and what it is asked for. -/
inductive ReplayOp where
  /-- A turn is generated. -/
  | remember (disabled : Bool) (turn : Turn)
  /-- A call of a turn of an earlier server is read back from a checkpoint. -/
  | load (disabled : Bool) (turn : Turn) (j : Fin turn.ids.length)
  /-- A request. -/
  | attach (disabled : Bool) (stats : ToolReplayStats) (msgs : List ReplayCalls)

/-- The memory, and the turns it was filled from. -/
structure ReplayState where
  memory : ToolMemory
  turns : List Turn

/-- One step of a history. -/
def ReplayState.step (st : ReplayState) : ReplayOp → Option ReplayState
  | .remember disabled turn =>
    (toolMemoryRemember disabled st.memory turn.ids turn.rawDsml).map fun memory =>
      ⟨memory, turn :: st.turns⟩
  | .load disabled turn j =>
    (toolMemoryPutSource disabled st.memory (turn.ids.get j) turn.rawDsml .disk).map fun memory =>
      ⟨memory, turn :: st.turns⟩
  | .attach disabled stats msgs =>
    some { st with memory := (toolMemoryAttachToMessages disabled st.memory stats msgs).1 }

/-- The calls of the block are the calls with these ids, one by one: the `j`-th id was remembered
    for the `j`-th call of the block, and the block has no more calls. -/
def Corresponds (turns : List Turn) (dsml : Bytes) (ids : List Bytes) : Prop :=
  ∃ turn ∈ turns, turn.rawDsml = dsml ∧ turn.ids.length = ids.length ∧
    ∀ (j : Nat) (id : Bytes), ids[j]? = some id →
      ∃ turn ∈ turns, turn.rawDsml = dsml ∧ turn.ids[j]? = some id

/-- Every block that an attach replays corresponds to its message. -/
def ReplaysSoundly (disabled : Bool) (st : ReplayState) (stats : ToolReplayStats)
    (msgs : List ReplayCalls) : Prop :=
  ∀ p ∈ msgs.zip (toolMemoryAttachToMessages disabled st.memory stats msgs).2.2, ∀ dsml,
    p.1.rawDsml = none → p.2.rawDsml = some dsml → Corresponds st.turns dsml p.1.ids

/-- No message picks calls out of a block: when all its ids are remembered for one block, they are
    the ids of all the calls of the block, in their order. -/
def WholeBlocks (st : ReplayState) (msgs : List ReplayCalls) : Prop :=
  ∀ calls ∈ msgs, calls.rawDsml = none → ∀ dsml, st.memory.NamesBlock calls.ids dsml →
    Corresponds st.turns dsml calls.ids

theorem ReplayState.step_kept {st : ReplayState} {uses : List Bytes} (h : st.memory.Kept uses)
    (op : ReplayOp) : ∃ st' uses', st.step op = some st' ∧ st'.memory.Kept uses' := by
  cases op with
  | remember disabled turn =>
    obtain ⟨m', hstep, hkept⟩ := h.step (.remember disabled turn.ids turn.rawDsml)
    unfold ToolMemory.step at hstep
    dsimp only at hstep
    refine ⟨⟨m', turn :: st.turns⟩, _, ?_, hkept⟩
    unfold ReplayState.step
    dsimp only
    rw [hstep, Option.map_some]
  | load disabled turn j =>
    obtain ⟨m', hstep, hkept⟩ := h.step (.put disabled (turn.ids.get j) turn.rawDsml .disk)
    unfold ToolMemory.step at hstep
    dsimp only at hstep
    refine ⟨⟨m', turn :: st.turns⟩, _, ?_, hkept⟩
    unfold ReplayState.step
    dsimp only
    rw [hstep, Option.map_some]
  | attach disabled stats msgs =>
    obtain ⟨m', hstep, hkept⟩ := h.step (.attach disabled stats msgs)
    unfold ToolMemory.step at hstep
    dsimp only at hstep
    obtain rfl := Option.some.inj hstep
    exact ⟨_, _, rfl, hkept⟩

theorem zip_map_right {α β : Type*} (f : α → β) (l : List α) :
    l.zip (l.map f) = l.map fun x => (x, f x) := by
  induction l with
  | nil => rfl
  | cons x l ih => rw [List.map_cons, List.zip_cons_cons, ih, List.map_cons]

theorem replaysSoundly_iff {st : ReplayState} {ps : List (Bytes × Bytes)} (h : st.memory.Holds ps)
    (disabled : Bool) (stats : ToolReplayStats) (msgs : List ReplayCalls) :
    ReplaysSoundly disabled st stats msgs ↔ disabled = true ∨ WholeBlocks st msgs := by
  unfold ReplaysSoundly toolMemoryAttachToMessages
  cases disabled with
  | true =>
    -- nothing is replayed
    refine ⟨fun _ => Or.inl rfl, fun _ p hp dsml hnone hsome => ?_⟩
    rw [if_pos rfl] at hp
    have hzip := zip_map_right (fun calls => calls) msgs
    rw [List.map_id'] at hzip
    rw [hzip, List.mem_map] at hp
    obtain ⟨calls, -, rfl⟩ := hp
    rw [hnone] at hsome
    cases hsome
  | false =>
    rw [if_neg (by decide), ToolMemory.attachLoop_eq_map h]
    unfold WholeBlocks
    have hzip : msgs.zip (msgs.map st.memory.replayed) =
        msgs.map fun calls => (calls, st.memory.replayed calls) := zip_map_right _ _
    rw [hzip]
    constructor
    · intro hsound
      refine Or.inr fun calls hmem hraw dsml hnames => ?_
      refine hsound _ (List.mem_map_of_mem hmem) dsml hraw ?_
      unfold ToolMemory.replayed
      rw [if_pos hraw]
      exact (ToolMemory.blockNamed_eq_some).mpr hnames
    · rintro (hoff | hwhole) p hp dsml hnone hsome
      · cases hoff
      · obtain ⟨calls, hmem, rfl⟩ := List.mem_map.mp hp
        refine hwhole calls hmem hnone dsml ((ToolMemory.blockNamed_eq_some).mp ?_)
        unfold ToolMemory.replayed at hsome
        rw [if_pos hnone] at hsome
        exact hsome

/-- A turn with two calls. -/
def twoCalls : Turn where
  ids := [lit "call_a", lit "call_b"]
  rawDsml := lit "<｜DSML｜tool_calls>\n<｜DSML｜invoke name=\"f\">\n</｜DSML｜invoke>\n" ++
    lit "<｜DSML｜invoke name=\"g\">\n</｜DSML｜invoke>\n</｜DSML｜tool_calls>"

end DS4.Server
