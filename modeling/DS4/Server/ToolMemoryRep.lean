import DS4.Server.ToolMemory

namespace DS4.Server

/-!
# Server — what the tool memory holds

* `ToolMemory.Rep` — the entries the list runs through, and how the heaps, the indexes and the
  counters go with them; between the two halves of a put one block may have no entry yet.
* `Rep.touch`, `Rep.removeEntry`, `Rep.getBlock`, `Rep.addEntry` — the entries that are left.
* `ToolMemory.Holds` — the memory as a list of ids with their texts, the most recent first.
  `Holds.lookup`, `Holds.prune` and `Holds.put` say what the operations are on that list.
-/

open DS4.Lib

namespace ToolMemory

/-! ### Entries and blocks -/

/-- An entry of the list, at its address. -/
structure EntryOk (m : ToolMemory) (a : Addr) (e : ToolMemoryEntry) : Prop where
  indexed : m.byId.lookup e.id = some a
  id : e.id ≠ []
  bytes : e.bytes = entryBytes e.id
  block : ∃ blk, m.block e.block = some blk ∧ a ∈ blk.entries

/-- A block, at its address. -/
structure BlockOk (m : ToolMemory) (spare : Option Addr) (b : Addr) (blk : ToolMemoryBlock) :
    Prop where
  indexed : m.byBlock.lookup blk.dsml = some b
  dsml : blk.dsml ≠ []
  bytes : blk.bytes = blockBytes blk.dsml
  nodup : blk.entries.Nodup
  refs : blk.refs = blk.entries.length
  used : 0 < blk.refs ∨ spare = some b
  names : ∀ a ∈ blk.entries, ∃ e, m.entry a = some e ∧ e.block = b

/-- **The entries of the list.** Every block but a spare one is named by an entry. -/
structure Rep (m : ToolMemory) (spare : Option Addr) (order : List Addr) : Prop where
  spells : m.links.Spells order
  live : ∀ a ∈ order, ∃ e, m.entry a = some e
  listed : ∀ a e, m.entry a = some e → a ∈ order
  entryOk : ∀ a e, m.entry a = some e → m.EntryOk a e
  blockOk : ∀ b blk, m.block b = some blk → m.BlockOk spare b blk
  byId : ∀ id a, m.byId.lookup id = some a → ∃ e, m.entry a = some e ∧ e.id = id
  byBlock : ∀ d b, m.byBlock.lookup d = some b → ∃ blk, m.block b = some blk ∧ blk.dsml = d
  fresh : ∀ a, m.fresh ≤ a → m.entry a = none ∧ m.block a = none
  count : m.entries = order.length
  bytes : m.bytes = weigh (fun id _ => entryBytes id) m.byId +
    weigh (fun d _ => blockBytes d) m.byBlock

theorem rep_empty (maxEntries : Int) (maxBytes : Nat) :
    (empty maxEntries maxBytes).Rep none [] where
  spells := Links.spells_empty
  live := fun a ha => by cases ha
  listed := fun a e h => by cases h
  entryOk := fun a e h => by cases h
  blockOk := fun b blk h => by cases h
  byId := fun id a h => by
    rw [show (empty maxEntries maxBytes).byId = ∅ from rfl, AList.lookup_empty] at h
    cases h
  byBlock := fun d b h => by
    rw [show (empty maxEntries maxBytes).byBlock = ∅ from rfl, AList.lookup_empty] at h
    cases h
  fresh := fun _ _ => ⟨rfl, rfl⟩
  count := rfl
  bytes := rfl

variable {m : ToolMemory} {spare : Option Addr} {order : List Addr} {a : Addr}
  {e e' : ToolMemoryEntry}

/-- Two entries with the same id are one. -/
theorem Rep.addr_inj (h : m.Rep spare order) {a' : Addr} (ha : m.entry a = some e)
    (ha' : m.entry a' = some e') (hid : e.id = e'.id) : a = a' := by
  have h₁ := (h.entryOk a e ha).indexed
  rw [hid, (h.entryOk a' e' ha').indexed] at h₁
  exact (Option.some.inj h₁).symm

/-! ### An entry rewritten in place -/

/-- An entry may get another stamp or source. -/
theorem Rep.setEntry (h : m.Rep spare order) (e' : ToolMemoryEntry) (ha : m.entry a = some e)
    (hid : e'.id = e.id) (hblock : e'.block = e.block)
    (hbytes : e'.bytes = e.bytes) (clock : Nat) :
    Rep { m with clock := clock, entry := Function.update m.entry a (some e') } spare order := by
  have hold := h.entryOk a e ha
  have hget : ∀ x y, Function.update m.entry a (some e') x = some y →
      ∃ y₀, m.entry x = some y₀ ∧ y.id = y₀.id ∧ y.block = y₀.block ∧ y.bytes = y₀.bytes := by
    intro x y hx
    by_cases hxa : x = a
    · rw [hxa, Function.update_self] at hx
      obtain rfl := Option.some.inj hx
      exact ⟨e, hxa ▸ ha, hid, hblock, hbytes⟩
    · rw [Function.update_of_ne hxa] at hx
      exact ⟨y, hx, rfl, rfl, rfl⟩
  have hput : ∀ x y₀, m.entry x = some y₀ →
      ∃ y, Function.update m.entry a (some e') x = some y ∧ y.id = y₀.id ∧ y.block = y₀.block := by
    intro x y₀ hx
    by_cases hxa : x = a
    · rw [hxa, ha] at hx
      obtain rfl := Option.some.inj hx
      exact ⟨e', by rw [hxa, Function.update_self], hid, hblock⟩
    · exact ⟨y₀, by rw [Function.update_of_ne hxa, hx], rfl, rfl⟩
  refine ⟨h.spells, fun x hx => ?_, fun x y hx => ?_, fun x y hx => ?_, fun b blk hb => ?_,
    fun id x hx => ?_, h.byBlock, fun x hx => ⟨?_, (h.fresh x hx).2⟩, h.count, h.bytes⟩
  · obtain ⟨y₀, hy₀⟩ := h.live x hx
    obtain ⟨y, hy, -⟩ := hput x y₀ hy₀
    exact ⟨y, hy⟩
  · obtain ⟨y₀, hy₀, -⟩ := hget x y hx
    exact h.listed x y₀ hy₀
  · obtain ⟨y₀, hy₀, hyid, hyblock, hybytes⟩ := hget x y hx
    have hok := h.entryOk x y₀ hy₀
    refine ⟨?_, ?_, ?_, ?_⟩
    · rw [hyid]
      exact hok.indexed
    · rw [hyid]
      exact hok.id
    · rw [hybytes, hyid]
      exact hok.bytes
    · rw [hyblock]
      exact hok.block
  · have hok := h.blockOk b blk hb
    refine ⟨hok.indexed, hok.dsml, hok.bytes, hok.nodup, hok.refs, hok.used, fun x hx => ?_⟩
    obtain ⟨y₀, hy₀, hyb⟩ := hok.names x hx
    obtain ⟨y, hy, -, hyblock⟩ := hput x y₀ hy₀
    exact ⟨y, hy, hyblock.trans hyb⟩
  · obtain ⟨y₀, hy₀, hyid⟩ := h.byId id x hx
    obtain ⟨y, hy, hyid', -⟩ := hput x y₀ hy₀
    exact ⟨y, hy, hyid'.trans hyid⟩
  · show Function.update m.entry a (some e') x = none
    have hxa : x ≠ a := fun hxa => by
      have hnone := (h.fresh x hx).1
      rw [hxa, ha] at hnone
      cases hnone
    rw [Function.update_of_ne hxa]
    exact (h.fresh x hx).1

/-- The list in another order. -/
theorem Rep.relink (h : m.Rep spare order) {links : Links Addr} {order' : List Addr}
    (hspells : links.Spells order') (hperm : order'.Perm order) :
    Rep { m with links := links } spare order' where
  spells := hspells
  live := fun x hx => h.live x (hperm.mem_iff.mp hx)
  listed := fun x e hx => hperm.mem_iff.mpr (h.listed x e hx)
  entryOk := fun x e hx => ⟨(h.entryOk x e hx).indexed, (h.entryOk x e hx).id,
    (h.entryOk x e hx).bytes, (h.entryOk x e hx).block⟩
  blockOk := fun b blk hb => ⟨(h.blockOk b blk hb).indexed, (h.blockOk b blk hb).dsml,
    (h.blockOk b blk hb).bytes, (h.blockOk b blk hb).nodup, (h.blockOk b blk hb).refs,
    (h.blockOk b blk hb).used, (h.blockOk b blk hb).names⟩
  byId := h.byId
  byBlock := h.byBlock
  fresh := h.fresh
  count := h.count.trans hperm.length_eq.symm
  bytes := h.bytes

/-- **A touch** brings the entry to the front. -/
theorem Rep.touch {x y : List Addr} (h : m.Rep spare (x ++ a :: y)) :
    (m.touch a).Rep spare (a :: (x ++ y)) := by
  obtain ⟨e, ha⟩ := h.live a (by simp)
  have hset := h.setEntry { e with stamp := m.tick } ha rfl rfl rfl m.tick
  have hnodup := h.spells.nodup
  rw [List.nodup_middle, List.nodup_cons] at hnodup
  unfold ToolMemory.touch
  rw [ha]
  dsimp only
  split
  · -- it is in front already
    rename_i hhead
    rw [h.spells.head] at hhead
    cases x with
    | nil => exact hset
    | cons z zs =>
      obtain rfl : z = a := by simpa using hhead
      simp at hnodup
  · exact hset.relink (h.spells.unlink.linkHead hnodup.1) List.perm_middle.symm

/-! ### An entry taken out -/

theorem removeEntry_eq {blk : ToolMemoryBlock} (ha : m.entry a = some e)
    (hb : m.block e.block = some blk) :
    m.removeEntry a =
      if 0 < blk.refs - 1 then
        { m with
          byId := m.byId.erase e.id
          links := m.links.unlink a
          block := Function.update m.block e.block
            (some { blk with entries := blk.entries.erase a, refs := blk.refs - 1 })
          bytes := m.bytes - e.bytes
          entries := m.entries - 1
          entry := Function.update m.entry a none }
      else
        { m with
          byId := m.byId.erase e.id
          byBlock := m.byBlock.erase blk.dsml
          links := m.links.unlink a
          block := Function.update m.block e.block none
          bytes := m.bytes - e.bytes - blk.bytes
          entries := m.entries - 1
          entry := Function.update m.entry a none } := by
  unfold ToolMemory.removeEntry
  rw [ha]
  dsimp only
  unfold unlinkFromBlock
  simp only [hb]
  unfold releaseBlock
  simp only [Function.update_self, Function.update_idem]
  split <;> rfl

theorem update_none_eq_some {x : Addr} :
    Function.update m.entry a none x = some e' ↔ x ≠ a ∧ m.entry x = some e' := by
  by_cases hxa : x = a
  · simp [hxa]
  · simp [hxa]

theorem removeEntry_entry {blk : ToolMemoryBlock} (ha : m.entry a = some e)
    (hb : m.block e.block = some blk) :
    (m.removeEntry a).entry = Function.update m.entry a none := by
  rw [removeEntry_eq ha hb]
  split <;> rfl

/-- **An entry taken out.** -/
theorem Rep.removeEntry {x y : List Addr} (h : m.Rep none (x ++ a :: y)) :
    (m.removeEntry a).Rep none (x ++ y) := by
  obtain ⟨e, ha⟩ := h.live a (by simp)
  have hok := h.entryOk a e ha
  obtain ⟨blk, hb, hmem⟩ := hok.block
  have hbok := h.blockOk e.block blk hb
  have hrefs := hbok.refs
  have hnodup := h.spells.nodup
  rw [List.nodup_middle, List.nodup_cons] at hnodup
  have hids := weigh_erase (w := fun id _ => entryBytes id) hok.indexed
  have hblocks := weigh_erase (w := fun d _ => blockBytes d) hbok.indexed
  have htotal := h.bytes
  have hcount := h.count
  rw [List.length_append, List.length_cons] at hcount
  have hebytes := hok.bytes
  have hbbytes := hbok.bytes
  -- the list and the ids, which do not depend on the block
  have hlive : ∀ z ∈ x ++ y, ∃ e', Function.update m.entry a none z = some e' := fun z hz => by
    obtain ⟨e', he'⟩ := h.live z (by
      rw [List.mem_append] at hz
      rw [List.mem_append, List.mem_cons]
      exact hz.imp id Or.inr)
    exact ⟨e', (update_none_eq_some).mpr ⟨fun hza => hnodup.1 (hza ▸ hz), he'⟩⟩
  have hlisted : ∀ z e', Function.update m.entry a none z = some e' → z ∈ x ++ y := fun z e' hz => by
    obtain ⟨hza, hz⟩ := (update_none_eq_some).mp hz
    have hzmem := h.listed z e' hz
    rw [List.mem_append, List.mem_cons] at hzmem
    rw [List.mem_append]
    exact hzmem.imp id fun hzmem => hzmem.resolve_left hza
  have hindexed : ∀ z e', Function.update m.entry a none z = some e' →
      (m.byId.erase e.id).lookup e'.id = some z := fun z e' hz => by
    obtain ⟨hza, hz⟩ := (update_none_eq_some).mp hz
    rw [AList.lookup_erase_ne fun hid => hza (h.addr_inj hz ha hid)]
    exact (h.entryOk z e' hz).indexed
  have hbyId : ∀ id z, (m.byId.erase e.id).lookup id = some z →
      ∃ e', Function.update m.entry a none z = some e' ∧ e'.id = id := fun id z hz => by
    by_cases hid : id = e.id
    · rw [hid, AList.lookup_erase] at hz
      cases hz
    · rw [AList.lookup_erase_ne hid] at hz
      obtain ⟨e', hz', hide'⟩ := h.byId id z hz
      refine ⟨e', (update_none_eq_some).mpr ⟨fun hza => hid ?_, hz'⟩, hide'⟩
      rw [hza, ha] at hz'
      rw [← hide', ← Option.some.inj hz']
  have hnames : ∀ b blk', m.block b = some blk' → ∀ z ∈ blk'.entries, z ≠ a →
      ∃ e', Function.update m.entry a none z = some e' ∧ e'.block = b := fun b blk' hb' z hz hza => by
    obtain ⟨e', he', hbe'⟩ := (h.blockOk b blk' hb').names z hz
    exact ⟨e', (update_none_eq_some).mpr ⟨hza, he'⟩, hbe'⟩
  -- another block does not list the entry
  have hother : ∀ b blk', m.block b = some blk' → b ≠ e.block → a ∉ blk'.entries :=
    fun b blk' hb' hne hmem' => by
      obtain ⟨e', he', hbe'⟩ := (h.blockOk b blk' hb').names a hmem'
      rw [ha] at he'
      rw [Option.some.inj he'] at hne
      exact hne hbe'.symm
  have hfresh : ∀ z, m.fresh ≤ z → Function.update m.entry a none z = none := fun z hz => by
    by_cases hza : z = a
    · rw [hza, Function.update_self]
    · rw [Function.update_of_ne hza]
      exact (h.fresh z hz).1
  have hfreshBlock : ∀ z, m.fresh ≤ z → z ≠ e.block := fun z hz hze => by
    have hnone := (h.fresh z hz).2
    rw [hze, hb] at hnone
    cases hnone
  have hpos : 0 < blk.entries.length := List.length_pos_of_mem hmem
  have herase : (blk.entries.erase a).length = blk.entries.length - 1 :=
    List.length_erase_of_mem hmem
  rw [removeEntry_eq ha hb]
  split
  · -- the block is named by other entries
    rename_i hmore
    refine ⟨h.spells.unlink, hlive, hlisted, fun z e' hz => ?_, fun b blk' hb' => ?_, hbyId,
      fun d b hd => ?_, fun z hz => ⟨hfresh z hz, ?_⟩, ?_, ?_⟩
    · obtain ⟨hza, hz'⟩ := (update_none_eq_some).mp hz
      have hok' := h.entryOk z e' hz'
      obtain ⟨blk', hb', hmem'⟩ := hok'.block
      refine ⟨hindexed z e' hz, hok'.id, hok'.bytes, ?_⟩
      by_cases hbe : e'.block = e.block
      · rw [hbe, hb] at hb'
        obtain rfl := Option.some.inj hb'
        rw [hbe]
        exact ⟨_, Function.update_self .., (List.mem_erase_of_ne hza).mpr hmem'⟩
      · exact ⟨blk', by simp only [Function.update_of_ne hbe, hb'], hmem'⟩
    · by_cases hbe : b = e.block
      · rw [hbe] at hb' ⊢
        simp only [Function.update_self] at hb'
        obtain rfl := Option.some.inj hb'
        refine ⟨hbok.indexed, hbok.dsml, hbok.bytes, hbok.nodup.erase a, ?_, Or.inl hmore,
          fun z hz => ?_⟩
        · show blk.refs - 1 = (blk.entries.erase a).length
          omega
        · obtain ⟨hza, hz⟩ := (hbok.nodup.mem_erase_iff).mp hz
          exact hnames _ blk hb z hz hza
      · simp only [Function.update_of_ne hbe] at hb'
        have hbok' := h.blockOk b blk' hb'
        exact ⟨hbok'.indexed, hbok'.dsml, hbok'.bytes, hbok'.nodup, hbok'.refs, hbok'.used,
          fun z hz => hnames b blk' hb' z hz fun hza => hother b blk' hb' hbe (hza ▸ hz)⟩
    · obtain ⟨blk', hb', hd'⟩ := h.byBlock d b hd
      by_cases hbe : b = e.block
      · rw [hbe, hb] at hb'
        obtain rfl := Option.some.inj hb'
        rw [hbe]
        exact ⟨_, Function.update_self .., hd'⟩
      · exact ⟨blk', by simp only [Function.update_of_ne hbe, hb'], hd'⟩
    · simp only [Function.update_of_ne (hfreshBlock z hz)]
      exact (h.fresh z hz).2
    · show m.entries - 1 = (x ++ y).length
      rw [List.length_append]
      omega
    · show m.bytes - e.bytes = _
      dsimp only at hids ⊢
      omega
  · -- it was the last one: the block goes with it
    rename_i hlast
    have hsingle : blk.entries.erase a = [] := List.length_eq_zero_iff.mp (by omega)
    have honly : ∀ z ∈ blk.entries, z = a := fun z hz => by
      by_contra hza
      have hz' := (List.mem_erase_of_ne hza).mpr hz
      rw [hsingle] at hz'
      cases hz'
    refine ⟨h.spells.unlink, hlive, hlisted, fun z e' hz => ?_, fun b blk' hb' => ?_, hbyId,
      fun d b hd => ?_, fun z hz => ⟨hfresh z hz, ?_⟩, ?_, ?_⟩
    · obtain ⟨hza, hz'⟩ := (update_none_eq_some).mp hz
      have hok' := h.entryOk z e' hz'
      obtain ⟨blk', hb', hmem'⟩ := hok'.block
      refine ⟨hindexed z e' hz, hok'.id, hok'.bytes, blk', ?_, hmem'⟩
      have hbe : e'.block ≠ e.block := fun hbe => by
        rw [hbe, hb] at hb'
        rw [← Option.some.inj hb'] at hmem'
        exact hza (honly z hmem')
      simp only [Function.update_of_ne hbe, hb']
    · by_cases hbe : b = e.block
      · simp only [hbe, Function.update_self] at hb'
        cases hb'
      · simp only [Function.update_of_ne hbe] at hb'
        have hbok' := h.blockOk b blk' hb'
        refine ⟨?_, hbok'.dsml, hbok'.bytes, hbok'.nodup, hbok'.refs, hbok'.used,
          fun z hz => hnames b blk' hb' z hz fun hza => hother b blk' hb' hbe (hza ▸ hz)⟩
        show (m.byBlock.erase blk.dsml).lookup blk'.dsml = some b
        have hne : blk'.dsml ≠ blk.dsml := fun hd => by
          have hi := hbok'.indexed
          rw [hd, hbok.indexed] at hi
          exact hbe (Option.some.inj hi).symm
        rw [AList.lookup_erase_ne hne]
        exact hbok'.indexed
    · have hne : d ≠ blk.dsml := fun hdd => by
        rw [hdd, AList.lookup_erase] at hd
        cases hd
      rw [AList.lookup_erase_ne hne] at hd
      obtain ⟨blk', hb', hd'⟩ := h.byBlock d b hd
      have hbe : b ≠ e.block := fun hbe => by
        rw [hbe, hb] at hb'
        rw [← Option.some.inj hb'] at hd'
        exact hne hd'.symm
      exact ⟨blk', by simp only [Function.update_of_ne hbe, hb'], hd'⟩
    · simp only [Function.update_of_ne (hfreshBlock z hz)]
      exact (h.fresh z hz).2
    · show m.entries - 1 = (x ++ y).length
      rw [List.length_append]
      omega
    · show m.bytes - e.bytes - blk.bytes = _
      dsimp only at hids hblocks ⊢
      omega

/-! ### An entry put in -/

/-- The block for a text, which may be new. -/
theorem Rep.getBlock (h : m.Rep none order) {dsml : Bytes} (hd : dsml ≠ []) :
    ∃ b m', m.getBlock dsml = some (b, m') ∧ m'.Rep (some b) order ∧
      (∃ blk, m'.block b = some blk ∧ blk.dsml = dsml) ∧ m'.entry = m.entry ∧ m'.byId = m.byId ∧
      (∀ p blk, m.block p = some blk → m'.block p = some blk) ∧
      m'.maxEntries = m.maxEntries ∧ m'.maxBytes = m.maxBytes := by
  unfold ToolMemory.getBlock findBlock
  rw [if_neg hd]
  cases hl : m.byBlock.lookup dsml with
  | some b =>
    refine ⟨b, m, rfl, ?_, h.byBlock dsml b hl, rfl, rfl, fun _ _ hp => hp, rfl, rfl⟩
    exact ⟨h.spells, h.live, h.listed, h.entryOk, fun p blk hp => ⟨(h.blockOk p blk hp).indexed,
      (h.blockOk p blk hp).dsml, (h.blockOk p blk hp).bytes, (h.blockOk p blk hp).nodup,
      (h.blockOk p blk hp).refs, (h.blockOk p blk hp).used.imp id fun hs => (by cases hs),
      (h.blockOk p blk hp).names⟩, h.byId, h.byBlock, h.fresh, h.count, h.bytes⟩
  | none =>
    have hnew : dsml ∉ m.byBlock := AList.lookup_eq_none.mp hl
    have hne : ∀ p blk, m.block p = some blk → p ≠ m.fresh := fun p blk hp hpf => by
      have hnone := (h.fresh p (Nat.le_of_eq hpf.symm)).2
      rw [hp] at hnone
      cases hnone
    unfold raxInsert
    rw [if_neg hnew]
    refine ⟨_, _, rfl, ?_, ⟨_, Function.update_self .., rfl⟩, rfl, rfl, fun p blk hp => ?_, rfl, rfl⟩
    · refine ⟨h.spells, h.live, h.listed, fun z e' hz => ?_, fun p blk hp => ?_, h.byId,
        fun d b hdb => ?_, fun z hz => ⟨(h.fresh z (Nat.le_of_succ_le hz)).1, ?_⟩, h.count, ?_⟩
      · have hok := h.entryOk z e' hz
        obtain ⟨blk, hb, hmem⟩ := hok.block
        refine ⟨hok.indexed, hok.id, hok.bytes, blk, ?_, hmem⟩
        show Function.update m.block m.fresh _ e'.block = some blk
        rw [Function.update_of_ne (hne _ blk hb), hb]
      · by_cases hpf : p = m.fresh
        · rw [hpf] at hp ⊢
          simp only [Function.update_self] at hp
          obtain rfl := Option.some.inj hp
          refine ⟨AList.lookup_insert _, hd, rfl, List.nodup_nil, rfl, Or.inr rfl, fun z hz => ?_⟩
          cases hz
        · simp only [Function.update_of_ne hpf] at hp
          have hok := h.blockOk p blk hp
          refine ⟨?_, hok.dsml, hok.bytes, hok.nodup, hok.refs,
            hok.used.imp id fun hs => (by cases hs), hok.names⟩
          show (m.byBlock.insert dsml m.fresh).lookup blk.dsml = some p
          have hdne : blk.dsml ≠ dsml := fun hdd => by
            have hi := hok.indexed
            rw [hdd, hl] at hi
            cases hi
          rw [AList.lookup_insert_ne hdne]
          exact hok.indexed
      · by_cases hdd : d = dsml
        · rw [hdd] at hdb ⊢
          simp only [AList.lookup_insert] at hdb
          obtain rfl := Option.some.inj hdb
          exact ⟨_, Function.update_self .., rfl⟩
        · simp only [AList.lookup_insert_ne hdd] at hdb
          obtain ⟨blk, hb, hdb'⟩ := h.byBlock d b hdb
          exact ⟨blk, by simp only [Function.update_of_ne (hne b blk hb), hb], hdb'⟩
      · show Function.update m.block m.fresh _ z = none
        have hz' : m.fresh + 1 ≤ z := hz
        have hzf : z ≠ m.fresh := (Nat.lt_of_succ_le hz').ne'
        rw [Function.update_of_ne hzf]
        exact (h.fresh z (Nat.le_of_succ_le hz)).2
      · show m.bytes + blockBytes dsml = _
        have hbytes := h.bytes
        have hsum := weigh_insert (w := fun d _ => blockBytes d) (s := m.byBlock) (a := dsml)
          (b := m.fresh)
        rw [erase_of_lookup_none hl] at hsum
        dsimp only at hsum ⊢
        omega
    · show Function.update m.block m.fresh _ p = some blk
      rw [Function.update_of_ne (hne p blk hp), hp]

/-- **An entry put in**, in front. -/
theorem Rep.addEntry {b : Addr} (h : m.Rep (some b) order) {blk : ToolMemoryBlock}
    (hb : m.block b = some blk) {id : Bytes} (hid : id ≠ []) (hnew : m.byId.lookup id = none)
    (source : ToolMemorySource) :
    ∃ m', m.addEntry b id source = some m' ∧ m'.Rep none (m.fresh :: order) ∧
      m'.entry = Function.update m.entry m.fresh
        (some { id := id, block := b, bytes := entryBytes id, stamp := m.tick, source := source }) ∧
      m'.block = Function.update m.block b
        (some { blk with entries := m.fresh :: blk.entries, refs := blk.refs + 1 }) ∧
      m'.maxEntries = m.maxEntries ∧ m'.maxBytes = m.maxBytes := by
  have hbok := h.blockOk b blk hb
  have hne : ∀ z e', m.entry z = some e' → z ≠ m.fresh := fun z e' hz hzf => by
    have hnone := (h.fresh z (Nat.le_of_eq hzf.symm)).1
    rw [hz] at hnone
    cases hnone
  have hnotin : m.fresh ∉ order := fun hmem => by
    obtain ⟨e', he'⟩ := h.live _ hmem
    exact hne _ e' he' rfl
  have hnotnamed : ∀ p blk', m.block p = some blk' → m.fresh ∉ blk'.entries := fun p blk' hp hmem => by
    obtain ⟨e', he', -⟩ := (h.blockOk p blk' hp).names _ hmem
    exact hne _ e' he' rfl
  unfold ToolMemory.addEntry
  rw [hb]
  dsimp only
  unfold raxInsert
  rw [if_neg (AList.lookup_eq_none.mp hnew)]
  refine ⟨_, rfl, ?_, rfl, rfl, rfl, rfl⟩
  refine ⟨h.spells.linkHead hnotin, fun z hz => ?_, fun z e' hz => ?_, fun z e' hz => ?_,
    fun p blk' hp => ?_, fun i z hz => ?_, fun d p hd => ?_, fun z hz => ⟨?_, ?_⟩, ?_, ?_⟩
  · rcases List.mem_cons.mp hz with rfl | hz
    · exact ⟨_, Function.update_self ..⟩
    · obtain ⟨e', he'⟩ := h.live z hz
      exact ⟨e', by simp only [Function.update_of_ne (hne z e' he'), he']⟩
  · by_cases hzf : z = m.fresh
    · exact List.mem_cons.mpr (Or.inl hzf)
    · simp only [Function.update_of_ne hzf] at hz
      exact List.mem_cons_of_mem _ (h.listed z e' hz)
  · by_cases hzf : z = m.fresh
    · simp only [hzf, Function.update_self] at hz ⊢
      obtain rfl := Option.some.inj hz
      exact ⟨AList.lookup_insert _, hid, rfl, _, Function.update_self .., List.mem_cons_self ..⟩
    · simp only [Function.update_of_ne hzf] at hz
      have hok := h.entryOk z e' hz
      obtain ⟨blk', hb', hmem'⟩ := hok.block
      refine ⟨?_, hok.id, hok.bytes, ?_⟩
      · show (m.byId.insert id m.fresh).lookup e'.id = some z
        have hide : e'.id ≠ id := fun hide => by
          have hi := hok.indexed
          rw [hide, hnew] at hi
          cases hi
        rw [AList.lookup_insert_ne hide]
        exact hok.indexed
      · by_cases hbe : e'.block = b
        · rw [hbe, hb] at hb'
          obtain rfl := Option.some.inj hb'
          rw [hbe]
          exact ⟨_, Function.update_self .., List.mem_cons_of_mem _ hmem'⟩
        · exact ⟨blk', by simp only [Function.update_of_ne hbe, hb'], hmem'⟩
  · by_cases hpb : p = b
    · simp only [hpb, Function.update_self] at hp ⊢
      obtain rfl := Option.some.inj hp
      refine ⟨hbok.indexed, hbok.dsml, hbok.bytes,
        List.nodup_cons.mpr ⟨hnotnamed b blk hb, hbok.nodup⟩, ?_, Or.inl (Nat.succ_pos _),
        fun z hz => ?_⟩
      · show blk.refs + 1 = blk.entries.length + 1
        rw [hbok.refs]
      · rcases List.mem_cons.mp hz with rfl | hz
        · exact ⟨_, Function.update_self .., rfl⟩
        · obtain ⟨e', he', hbe'⟩ := hbok.names z hz
          exact ⟨e', by simp only [Function.update_of_ne (hne z e' he'), he'], hbe'⟩
    · simp only [Function.update_of_ne hpb] at hp
      have hok := h.blockOk p blk' hp
      refine ⟨hok.indexed, hok.dsml, hok.bytes, hok.nodup, hok.refs, ?_, fun z hz => ?_⟩
      · exact hok.used.imp (fun hu => hu) fun hs => absurd (Option.some.inj hs).symm hpb
      · obtain ⟨e', he', hbe'⟩ := hok.names z hz
        exact ⟨e', by simp only [Function.update_of_ne (hne z e' he'), he'], hbe'⟩
  · by_cases hii : i = id
    · rw [hii] at hz ⊢
      obtain rfl := Option.some.inj ((AList.lookup_insert _).symm.trans hz)
      exact ⟨_, Function.update_self .., rfl⟩
    · simp only [AList.lookup_insert_ne hii] at hz
      obtain ⟨e', he', hide'⟩ := h.byId i z hz
      exact ⟨e', by simp only [Function.update_of_ne (hne z e' he'), he'], hide'⟩
  · obtain ⟨blk', hp, hd'⟩ := h.byBlock d p hd
    by_cases hpb : p = b
    · rw [hpb, hb] at hp
      obtain rfl := Option.some.inj hp
      rw [hpb]
      exact ⟨_, Function.update_self .., hd'⟩
    · exact ⟨blk', by simp only [Function.update_of_ne hpb, hp], hd'⟩
  · show Function.update m.entry m.fresh _ z = none
    have hz' : m.fresh + 1 ≤ z := hz
    have hzf : z ≠ m.fresh := (Nat.lt_of_succ_le hz').ne'
    rw [Function.update_of_ne hzf]
    exact (h.fresh z (Nat.le_of_succ_le hz)).1
  · show Function.update m.block b _ z = none
    have hzb : z ≠ b := fun hzb => by
      have hnone := (h.fresh z (Nat.le_of_succ_le hz)).2
      rw [hzb, hb] at hnone
      cases hnone
    rw [Function.update_of_ne hzb]
    exact (h.fresh z (Nat.le_of_succ_le hz)).2
  · show m.entries + 1 = order.length + 1
    rw [h.count]
  · show m.bytes + entryBytes id = _
    have hbytes := h.bytes
    have hsum := weigh_insert (w := fun i _ => entryBytes i) (s := m.byId) (a := id) (b := m.fresh)
    rw [erase_of_lookup_none hnew] at hsum
    dsimp only at hsum ⊢
    omega

end ToolMemory

end DS4.Server
