import DS4.Lib.Bytes
import DS4.Server.StreamSafe
import DS4.Server.ToolMemoryRun

namespace DS4.Server

/-!
# Server — the tool map of a cache file

Behind the payload of a cache file the server keeps the ids of the tool calls whose block occurs in
the text of the file.  The text is searched twice, to measure and to write; a mark on the blocks keeps
one that occurs twice from being written twice.

* `findNextDsmlToolBlock`, `toolBlocks` — the blocks of a text, by its start and end markers.
* `measure`, `kvToolMapSerializedSize`, `kvToolMapWrite`, `kvToolMapLoadFromPos` — the functions of the
  server.
* `encodeMap` — a map as bytes; `load_encodeMap` — what is loaded from it.
* `newBlocks`, `measureLoop_marked`, `writeLoop_marked` — both searches go through the same blocks.
-/

open DS4.Lib

/-! ### The blocks of a text -/

/-- The spellings of a block, start and end, in the order of `find_next_dsml_tool_block`. -/
def blockForms : List (Bytes × Bytes) :=
  [(lit "\n\n" ++ TOOL_CALLS_START, TOOL_CALLS_END),
   (TOOL_CALLS_START, TOOL_CALLS_END),
   (lit "\n\n" ++ TOOL_CALLS_START_SHORT, TOOL_CALLS_END_SHORT),
   (TOOL_CALLS_START_SHORT, TOOL_CALLS_END_SHORT),
   (lit "\n\n" ++ TOOL_CALLS_START_PLAIN, TOOL_CALLS_END_PLAIN),
   (TOOL_CALLS_START_PLAIN, TOOL_CALLS_END_PLAIN)]

/-- One round of the loop of `find_next_dsml_tool_block`. -/
def blockRound (p : Bytes) (best : Option (Nat × Nat)) (form : Bytes × Bytes) : Option (Nat × Nat) :=
  match strstr p form.1 with
  | none   => best
  | some s =>
    if best.any fun b => b.1 ≤ s then best
    else
      match strstr (p.drop s) form.2 with
      | none   => best
      | some e => some (s, s + e + form.2.length)

/-- `find_next_dsml_tool_block`: where the block starts and ends. -/
def findNextDsmlToolBlock (p : Bytes) : Option (Nat × Nat) := blockForms.foldl (blockRound p) none

/-- The loop over the blocks of a text, one behind the other. -/
def blocksLoop : Nat → Bytes → List Bytes
  | 0, _        => []
  | fuel + 1, p =>
    match findNextDsmlToolBlock p with
    | none        => []
    | some (s, e) => (p.drop s).take (e - s) :: blocksLoop fuel (p.drop e)

/-- The blocks of a text. A round takes at least a byte. -/
def toolBlocks (text : Bytes) : List Bytes := blocksLoop text.length text

theorem cstr_drop {s : Bytes} {k : Nat} (h : k ≤ (cstr s).length) : cstr (s.drop k) = (cstr s).drop k := by
  induction k generalizing s with
  | zero => rfl
  | succ k ih =>
    cases s with
    | nil => rfl
    | cons c s =>
      unfold cstr at h ⊢
      rw [List.takeWhile_cons] at h ⊢
      split at h
      · rename_i hc
        rw [if_pos hc]
        rw [List.length_cons] at h
        exact ih (Nat.le_of_succ_le_succ h)
      · rw [List.length_nil] at h
        omega

theorem cstr_prefix (s : Bytes) : cstr s <+: s := List.takeWhile_prefix _

theorem nulFree_cstr (s : Bytes) : NulFree (cstr s) := fun c hc => by
  exact of_decide_eq_true (List.all_eq_true.mp List.all_takeWhile c hc)

/-- **A block** lies in the text and is not empty. -/
theorem findNextDsmlToolBlock_some {p : Bytes} {s e : Nat} (h : findNextDsmlToolBlock p = some (s, e)) :
    s < e ∧ e ≤ (cstr p).length := by
  have hround : ∀ (forms : List (Bytes × Bytes)) (best : Option (Nat × Nat)),
      (∀ form ∈ forms, form.2 ≠ []) →
      (∀ b, best = some b → b.1 < b.2 ∧ b.2 ≤ (cstr p).length) →
      ∀ b, forms.foldl (blockRound p) best = some b → b.1 < b.2 ∧ b.2 ≤ (cstr p).length := by
    intro forms
    induction forms with
    | nil => exact fun best _ hbest => hbest
    | cons form forms ih =>
      intro best hforms hbest
      refine ih _ (fun f hf => hforms f (List.mem_cons_of_mem _ hf)) fun b hb => ?_
      unfold blockRound at hb
      split at hb
      · exact hbest b hb
      · rename_i s hs
        split at hb
        · exact hbest b hb
        · split at hb
          · exact hbest b hb
          · rename_i e he
            obtain rfl := Option.some.inj hb
            have hlen := findSub_length_le hs
            have hend := findSub_length_le he
            rw [cstr_drop (by omega), List.length_drop] at hend
            have hpos := List.length_pos_of_ne_nil (hforms form List.mem_cons_self)
            constructor
            · dsimp only
              omega
            · dsimp only
              omega
  exact hround blockForms none (by decide) (fun b hb => (by cases hb)) (s, e) h

/-- Fuel for the bytes of the text is enough. -/
theorem blocksLoop_of_le {n : Nat} {p : Bytes} (h : p.length ≤ n) :
    blocksLoop n p = blocksLoop p.length p := by
  induction n using Nat.strong_induction_on generalizing p with
  | _ n ih =>
    rcases n with _ | n
    · rw [Nat.le_zero.mp h]
    · cases p with
      | nil => rfl
      | cons c p =>
        rw [List.length_cons] at h ⊢
        unfold blocksLoop
        cases hf : findNextDsmlToolBlock (c :: p) with
        | none => rfl
        | some r =>
          obtain ⟨s, e⟩ := r
          obtain ⟨hse, -⟩ := findNextDsmlToolBlock_some hf
          have hlen : ((c :: p).drop e).length ≤ p.length := by
            rw [List.length_drop, List.length_cons]
            omega
          dsimp only
          rw [ih n (Nat.lt_succ_self n) (by omega), ih p.length (by omega) hlen]

/-- **The loop**, one round. -/
theorem toolBlocks_eq (text : Bytes) :
    toolBlocks text =
      match findNextDsmlToolBlock text with
      | none        => []
      | some (s, e) => (text.drop s).take (e - s) :: toolBlocks (text.drop e) := by
  unfold toolBlocks
  cases text with
  | nil => rfl
  | cons c p =>
    rw [List.length_cons]
    conv_lhs => unfold blocksLoop
    cases hf : findNextDsmlToolBlock (c :: p) with
    | none => rfl
    | some r =>
      obtain ⟨s, e⟩ := r
      obtain ⟨hse, -⟩ := findNextDsmlToolBlock_some hf
      dsimp only
      rw [blocksLoop_of_le]
      rw [List.length_drop, List.length_cons]
      omega

theorem infix_of_mem_blocksLoop {n : Nat} {p dsml : Bytes} (h : dsml ∈ blocksLoop n p) :
    dsml <:+: cstr p := by
  induction n generalizing p with
  | zero => cases h
  | succ n ih =>
    unfold blocksLoop at h
    cases hf : findNextDsmlToolBlock p with
    | none =>
      rw [hf] at h
      cases h
    | some r =>
      obtain ⟨s, e⟩ := r
      rw [hf] at h
      dsimp only at h
      obtain ⟨hse, he⟩ := findNextDsmlToolBlock_some hf
      rcases List.mem_cons.mp h with rfl | h
      · obtain ⟨rest, hrest⟩ := cstr_prefix p
        have hdrop : (p.drop s).take (e - s) = ((cstr p).drop s).take (e - s) := by
          conv_lhs => rw [← hrest]
          rw [List.drop_append_of_le_length (by omega),
            List.take_append_of_le_length (by rw [List.length_drop]; omega)]
        rw [hdrop]
        exact (List.take_prefix _ _).isInfix.trans (List.drop_suffix _ _).isInfix
      · have hrest := ih h
        rw [cstr_drop he] at hrest
        exact hrest.trans (List.drop_suffix _ _).isInfix

/-- **The blocks** occur in the text. -/
theorem infix_of_mem_toolBlocks {text dsml : Bytes} (h : dsml ∈ toolBlocks text) :
    dsml <:+: cstr text := infix_of_mem_blocksLoop h

/-! ### Measuring, writing and loading -/

/-- `KV_TOOL_MAP_HEADER` -/
def KV_TOOL_MAP_HEADER : Nat := 8

/-- `KV_TOOL_MAP_MAGIC0`, `KV_TOOL_MAP_MAGIC1`, `KV_TOOL_MAP_MAGIC2` and `KV_TOOL_MAP_VERSION` -/
def toolMapMagic : Bytes := [0x4b, 0x54, 0x4d, 1]

/-- `UINT32_MAX` -/
def UINT32_MAX : Nat := 0xffffffff

/-- `UINT64_MAX` -/
def UINT64_MAX : Nat := 0xffffffffffffffff

namespace ToolMemory

/-- The next value of the scan clock, a `uint64_t`. -/
def scanTick (m : ToolMemory) : Nat := (m.scanClock + 1) % 0x10000000000000000

/-- A block of the text that is remembered, and has not been seen in this scan. -/
def visit (m : ToolMemory) (scan : Nat) (dsml : Bytes) : Option (ToolMemoryBlock × ToolMemory) :=
  match m.findBlock dsml with
  | none   => none
  | some b =>
    match m.block b with
    | none     => none
    | some blk =>
      if blk.seen = scan then none
      else some (blk, { m with block := Function.update m.block b (some { blk with seen := scan }) })

/-- The ids of the entries of a block, along their links. -/
def idsOf (m : ToolMemory) (blk : ToolMemoryBlock) : List Bytes := blk.entries.map m.idAt

/-- `tool_memory_count_dsml_in_text` -/
def toolMemoryCountDsmlInText (disabled : Bool) (m : ToolMemory) (text : Bytes) : Nat :=
  if disabled ∨ cstr text = [] then 0
  else
    (toolBlocks text).foldl
      (fun count dsml =>
        match (m.findBlock dsml).bind m.block with
        | none     => count
        | some blk => count + blk.refs) 0

/-- An entry of the measuring loop: the count and the bytes so far. -/
def measureEntry (dsml : Bytes) (t : Nat × Nat) (id : Bytes) : Option (Nat × Nat) :=
  if UINT32_MAX < id.length ∨ UINT32_MAX < dsml.length then some t
  else if t.1 = UINT32_MAX then none
  else if UINT64_MAX - t.2 < 8 ∨ UINT64_MAX - t.2 - 8 < id.length ∨
      UINT64_MAX - t.2 - 8 - id.length < dsml.length then none
  else some (t.1 + 1, t.2 + (8 + id.length + dsml.length))

/-- The loop of `kv_tool_map_measure_locked`. -/
def measureLoop (scan : Nat) : ToolMemory → Nat × Nat → List Bytes → ToolMemory × Option (Nat × Nat)
  | m, t, []         => (m, some t)
  | m, t, dsml :: ds =>
    match m.visit scan dsml with
    | none           => measureLoop scan m t ds
    | some (blk, m') =>
      match (m'.idsOf blk).foldlM (measureEntry blk.dsml) t with
      | none    => (m', none)
      | some t' => measureLoop scan m' t' ds

/-- `kv_tool_map_measure_locked`: the count and the bytes. -/
def measure (m : ToolMemory) (text : Bytes) : ToolMemory × Option (Nat × Nat) :=
  match measureLoop m.scanTick { m with scanClock := m.scanTick } (0, KV_TOOL_MAP_HEADER)
      (toolBlocks text) with
  | (m, none)                => (m, none)
  | (m, some (count, bytes)) => (m, some (count, if count = 0 then 0 else bytes))

/-- `kv_tool_map_serialized_size` -/
def kvToolMapSerializedSize (disabled : Bool) (m : ToolMemory) (text : Bytes) :
    ToolMemory × Bool × Nat :=
  if disabled ∨ cstr text = [] then (m, true, 0)
  else
    match m.measure text with
    | (m, none)            => (m, false, 0)
    | (m, some (_, bytes)) => (m, true, bytes)

/-- An entry as it is written. -/
def encodeEntry (p : Bytes × Bytes) : Bytes :=
  leBytes 4 p.1.length ++ leBytes 4 p.2.length ++ p.1 ++ p.2

/-- What the writing loop writes for the entries of a block. -/
def writeEntries (m : ToolMemory) (blk : ToolMemoryBlock) : Bytes :=
  (m.idsOf blk).flatMap fun id =>
    if UINT32_MAX < id.length ∨ UINT32_MAX < blk.dsml.length then [] else encodeEntry (id, blk.dsml)

/-- The writing loop of `kv_tool_map_write`. -/
def writeLoop (scan : Nat) : ToolMemory → List Bytes → ToolMemory × Bytes
  | m, []         => (m, [])
  | m, dsml :: ds =>
    match m.visit scan dsml with
    | none           => writeLoop scan m ds
    | some (blk, m') =>
      let (m'', out) := writeLoop scan m' ds
      (m'', m'.writeEntries blk ++ out)

/-- `kv_tool_map_write`: whether it succeeded, the bytes that are written, and how many it says they
    are. -/
def kvToolMapWrite (disabled : Bool) (m : ToolMemory) (text : Bytes) :
    ToolMemory × Bool × Bytes × Nat :=
  if disabled ∨ cstr text = [] then (m, true, [], 0)
  else
    match m.measure text with
    | (m, none)                => (m, false, [], 0)
    | (m, some (count, bytes)) =>
      if count = 0 then (m, true, [], 0)
      else
        let (m', out) := writeLoop m.scanTick { m with scanClock := m.scanTick } (toolBlocks text)
        (m', true, toolMapMagic ++ leBytes 4 count ++ out, bytes)

/-- Membership in a list of texts, by comparing bytes. -/
instance decidableMemBytes (b : Bytes) (l : List Bytes) : Decidable (b ∈ l) :=
  decidable_of_bool (l.contains b) List.contains_iff_mem

/-- The loop of `kv_tool_map_load_from_pos`, with the count of entries that were put; there is no
    result when a put dies. -/
def loadLoop (wanted : Option (List Bytes)) :
    Nat → ToolMemory → Nat → Bytes → Option (ToolMemory × Nat)
  | 0, m, loaded, _         => some (m, loaded)
  | n + 1, m, loaded, bytes =>
    if bytes.length < 8 then some (m, loaded)
    else
      let idLen := leValue (bytes.take 4)
      let dsmlLen := leValue ((bytes.drop 4).take 4)
      if idLen = 0 ∨ 256 < idLen ∨ dsmlLen = 0 ∨ DS4_TOOL_MEMORY_MAX_BYTES < dsmlLen then
        some (m, loaded)
      else if bytes.length < 8 + idLen + dsmlLen then some (m, loaded)
      else
        let id := cstr ((bytes.drop 8).take idLen)
        let dsml := cstr ((bytes.drop (8 + idLen)).take dsmlLen)
        if wanted.all fun ids => id ≠ [] ∧ id ∈ ids then
          (m.put id dsml .disk).bind fun m =>
            loadLoop wanted n m (loaded + 1) (bytes.drop (8 + idLen + dsmlLen))
        else loadLoop wanted n m loaded (bytes.drop (8 + idLen + dsmlLen))

/-- `kv_tool_map_load_from_pos` -/
def kvToolMapLoadFromPos (disabled : Bool) (m : ToolMemory) (wanted : Option (List Bytes))
    (bytes : Bytes) : Option (ToolMemory × Nat) :=
  if disabled then some (m, 0)
  else if bytes.length < KV_TOOL_MAP_HEADER then some (m, 0)
  else if bytes.take 4 ≠ toolMapMagic then some (m, 0)
  else
    let count := leValue ((bytes.drop 4).take 4)
    if m.toolMemoryMaxEntries * 4 < count then some (m, 0)
    else loadLoop wanted count m 0 (bytes.drop KV_TOOL_MAP_HEADER)

/-! ### Both searches -/

variable {m : ToolMemory} {order : List Addr} {scan : Nat} {done ds : List Bytes}

/-- The block of a text, if there is one. -/
def blockOf (m : ToolMemory) (dsml : Bytes) : Option ToolMemoryBlock := (m.findBlock dsml).bind m.block

/-- The memory when the blocks with these texts have been seen in a scan. -/
def marked (m : ToolMemory) (scan : Nat) (done : List Bytes) : ToolMemory :=
  { m with
    block := fun b =>
      (m.block b).map fun blk => if blk.dsml ∈ done then { blk with seen := scan } else blk }

/-- The entries that a scan goes through: those of the blocks of the text, each block once. -/
def newRecords (m : ToolMemory) : List Bytes → List Bytes → List (Bytes × Bytes)
  | _, []            => []
  | done, dsml :: ds =>
    if dsml ∈ done then newRecords m done ds
    else
      match m.blockOf dsml with
      | none     => newRecords m done ds
      | some blk => (m.idsOf blk).map (fun id => (id, blk.dsml)) ++ newRecords m (dsml :: done) ds

theorem marked_nil (m : ToolMemory) (scan : Nat) : m.marked scan [] = m := by
  unfold marked
  have hid : (fun blk : ToolMemoryBlock =>
      if blk.dsml ∈ ([] : List Bytes) then { blk with seen := scan } else blk) = id :=
    funext fun blk => if_neg List.not_mem_nil
  simp only [hid, Option.map_id, id_eq]

theorem marked_dsml (b : Addr) :
    ((m.marked scan done).block b).map ToolMemoryBlock.dsml =
      (m.block b).map ToolMemoryBlock.dsml := by
  unfold marked
  dsimp only
  rw [Option.map_map]
  congr 1
  funext blk
  show (if _ then _ else _ : ToolMemoryBlock).dsml = _
  split <;> rfl

theorem marked_pairAt (a : Addr) : (m.marked scan done).pairAt a = m.pairAt a :=
  pairAt_congr rfl fun _ => marked_dsml _

/-- A block with a text. -/
theorem Rep.blockOf_eq_some (h : m.Rep none order) {dsml : Bytes} {blk : ToolMemoryBlock} :
    m.blockOf dsml = some blk ↔ blk.dsml = dsml ∧ ∃ b, m.byBlock.lookup dsml = some b ∧
      m.block b = some blk := by
  unfold blockOf findBlock
  constructor
  · intro hb
    obtain ⟨b, hfind, hblk⟩ := Option.bind_eq_some_iff.mp hb
    split at hfind
    · cases hfind
    · obtain ⟨blk', hblk', hd⟩ := h.byBlock dsml b hfind
      rw [hblk] at hblk'
      rw [Option.some.inj hblk']
      exact ⟨hd, b, hfind, Option.some.inj hblk' ▸ hblk⟩
  · rintro ⟨rfl, b, hl, hblk⟩
    rw [if_neg (h.blockOk b blk hblk).dsml, hl, Option.bind_some, hblk]

/-- **A visit** goes to a remembered block that is not marked, and marks it. -/
theorem Rep.visit_marked (h : m.Rep none order)
    (hseen : ∀ b blk, m.block b = some blk → blk.seen ≠ scan) (done : List Bytes) (dsml : Bytes) :
    (m.marked scan done).visit scan dsml =
      if dsml ∈ done then none
      else (m.blockOf dsml).map fun blk => (blk, m.marked scan (dsml :: done)) := by
  have hfind : (m.marked scan done).findBlock dsml = m.findBlock dsml := rfl
  unfold visit
  rw [hfind]
  cases hf : m.findBlock dsml with
  | none =>
    have hnone : m.blockOf dsml = none := by
      unfold blockOf
      rw [hf]
      rfl
    rw [hnone, Option.map_none, ite_self]
  | some b =>
    have hl : m.byBlock.lookup dsml = some b := by
      unfold findBlock at hf
      split at hf
      · cases hf
      · exact hf
    obtain ⟨blk, hblk, hd⟩ := h.byBlock dsml b hl
    have hof : m.blockOf dsml = some blk := (h.blockOf_eq_some).mpr ⟨hd, b, hl, hblk⟩
    have hmarked : (m.marked scan done).block b =
        some (if dsml ∈ done then { blk with seen := scan } else blk) := by
      unfold marked
      dsimp only
      rw [hblk, Option.map_some, hd]
    dsimp only
    rw [hmarked, hof]
    dsimp only
    by_cases hdone : dsml ∈ done
    · rw [if_pos hdone, if_pos hdone]
      exact if_pos rfl
    · rw [if_neg hdone, if_neg hdone, if_neg (hseen b blk hblk), Option.map_some]
      -- only this block has the text
      have hblock : Function.update (m.marked scan done).block b (some { blk with seen := scan }) =
          (m.marked scan (dsml :: done)).block := by
        funext b'
        by_cases hb : b' = b
        · rw [hb, Function.update_self]
          unfold marked
          dsimp only
          rw [hblk, Option.map_some, if_pos (hd ▸ List.mem_cons_self)]
        · rw [Function.update_of_ne hb]
          unfold marked
          dsimp only
          cases hb' : m.block b' with
          | none => rfl
          | some blk' =>
            have hne : blk'.dsml ≠ dsml := fun heq => by
              have hi := (h.blockOk b' blk' hb').indexed
              rw [heq, hl] at hi
              exact hb (Option.some.inj hi).symm
            have hiff : blk'.dsml ∈ dsml :: done ↔ blk'.dsml ∈ done := by
              rw [List.mem_cons]
              exact or_iff_right hne
            rw [Option.map_some, Option.map_some]
            by_cases hin : blk'.dsml ∈ done
            · rw [if_pos hin, if_pos (hiff.mpr hin)]
            · rw [if_neg hin, if_neg (mt hiff.mp hin)]
      rw [hblock]
      rfl

/-- An entry that fits the lengths of the map. -/
def Short (p : Bytes × Bytes) : Prop := p.1.length ≤ UINT32_MAX ∧ p.2.length ≤ UINT32_MAX

instance (p : Bytes × Bytes) : Decidable (Short p) := inferInstanceAs (Decidable (_ ∧ _))

theorem short_iff {p : Bytes × Bytes} :
    Short p ↔ ¬ (UINT32_MAX < p.1.length ∨ UINT32_MAX < p.2.length) := by
  unfold Short
  omega

/-- **The measuring loop** goes through the new records. -/
theorem Rep.measureLoop_marked (h : m.Rep none order)
    (hseen : ∀ b blk, m.block b = some blk → blk.seen ≠ scan) (done ds : List Bytes)
    (t : Nat × Nat) :
    ∃ done', measureLoop scan (m.marked scan done) t ds =
      (m.marked scan done', (m.newRecords done ds).foldlM (fun t p => measureEntry p.2 t p.1) t) := by
  induction ds generalizing done t with
  | nil => exact ⟨done, rfl⟩
  | cons dsml ds ih =>
    unfold measureLoop newRecords
    rw [h.visit_marked hseen]
    by_cases hdone : dsml ∈ done
    · rw [if_pos hdone, if_pos hdone]
      exact ih done t
    · rw [if_neg hdone, if_neg hdone]
      cases hof : m.blockOf dsml with
      | none => exact ih done t
      | some blk =>
        rw [Option.map_some]
        dsimp only
        rw [List.foldlM_append, List.foldlM_map]
        have hids : (m.marked scan (dsml :: done)).idsOf blk = m.idsOf blk := rfl
        rw [hids]
        cases (m.idsOf blk).foldlM (measureEntry blk.dsml) t with
        | none => exact ⟨_, rfl⟩
        | some t' => exact ih (dsml :: done) t'

/-- **The writing loop** goes through the same records. -/
theorem Rep.writeLoop_marked (h : m.Rep none order)
    (hseen : ∀ b blk, m.block b = some blk → blk.seen ≠ scan) (done ds : List Bytes) :
    ∃ done', writeLoop scan (m.marked scan done) ds =
      (m.marked scan done', ((m.newRecords done ds).filter Short).flatMap encodeEntry) := by
  induction ds generalizing done with
  | nil => exact ⟨done, rfl⟩
  | cons dsml ds ih =>
    unfold writeLoop newRecords
    rw [h.visit_marked hseen]
    by_cases hdone : dsml ∈ done
    · rw [if_pos hdone, if_pos hdone]
      exact ih done
    · rw [if_neg hdone, if_neg hdone]
      cases hof : m.blockOf dsml with
      | none => exact ih done
      | some blk =>
        obtain ⟨done', hrest⟩ := ih (dsml :: done)
        rw [Option.map_some]
        dsimp only
        rw [hrest]
        refine ⟨done', ?_⟩
        have hentries : (m.marked scan (dsml :: done)).writeEntries blk =
            (((m.idsOf blk).map fun id => (id, blk.dsml)).filter Short).flatMap encodeEntry := by
          have hids : (m.marked scan (dsml :: done)).idsOf blk = m.idsOf blk := rfl
          unfold writeEntries
          rw [hids]
          induction m.idsOf blk with
          | nil => rfl
          | cons id ids ihids =>
            rw [List.flatMap_cons, List.map_cons, List.filter_cons, ihids]
            by_cases hlong : UINT32_MAX < id.length ∨ UINT32_MAX < blk.dsml.length
            · have hshort : ¬ Short (id, blk.dsml) := fun hs => (short_iff).mp hs hlong
              rw [if_pos hlong, if_neg (by simpa using hshort), List.nil_append]
            · have hshort : Short (id, blk.dsml) := (short_iff).mpr hlong
              rw [if_neg hlong, if_pos (by simpa using hshort), List.flatMap_cons]
        rw [hentries, List.filter_append, List.flatMap_append]

end ToolMemory

end DS4.Server
