import DS4.Lib.Recency
import DS4.Server.ToolMemoryRep

namespace DS4.Server

/-!
# Server — runs of the tool memory

* `ToolMemory.Holds` — the memory as a list of ids with their texts, the most recent first.
  `Holds.lookup`, `Holds.prune` and `Holds.put` say what the operations are on that list.
* `ToolMemory.Op`, `ToolMemory.step` — what the server does with its memory.
* `tool_memory_run` — in every run the indexes, the list and the counters agree, the list is in
  the order of use, and the limits hold.
-/

open DS4.Lib

namespace ToolMemory

variable {m : ToolMemory} {spare : Option Addr} {order : List Addr} {a : Addr} {id dsml : Bytes}

/-! ### The memory as a list -/

/-- The id of an entry. -/
def idAt (m : ToolMemory) (a : Addr) : Bytes := ((m.entry a).map ToolMemoryEntry.id).getD []

/-- The id of an entry, and the text of its block. -/
def pairAt (m : ToolMemory) (a : Addr) : Bytes × Bytes := (m.idAt a, (m.blockText a).getD [])

/-- **The memory as a list** of ids with their texts. -/
def Holds (m : ToolMemory) (ps : List (Bytes × Bytes)) : Prop :=
  ∃ order, m.Rep none order ∧ order.map m.pairAt = ps

/-- The pairs of the other ids. -/
def others (id : Bytes) (ps : List (Bytes × Bytes)) : List (Bytes × Bytes) :=
  ps.filter fun p => p.1 ≠ id

/-- The pairs after a lookup. -/
def bring (id : Bytes) (ps : List (Bytes × Bytes)) : List (Bytes × Bytes) :=
  match ps.lookup id with
  | none => ps
  | some d => (id, d) :: others id ps

theorem Rep.idAt_inj (h : m.Rep spare order) {a' : Addr} (ha : a ∈ order) (ha' : a' ∈ order)
    (hid : m.idAt a = m.idAt a') : a = a' := by
  obtain ⟨e, he⟩ := h.live a ha
  obtain ⟨e', he'⟩ := h.live a' ha'
  unfold idAt at hid
  rw [he, he'] at hid
  exact h.addr_inj he he' hid

theorem Rep.idAt_ne_nil (h : m.Rep spare order) (ha : a ∈ order) : m.idAt a ≠ [] := by
  obtain ⟨e, he⟩ := h.live a ha
  unfold idAt
  rw [he]
  exact (h.entryOk a e he).id

theorem Rep.lookup_byId (h : m.Rep spare order) :
    m.byId.lookup id = some a ↔ a ∈ order ∧ m.idAt a = id := by
  constructor
  · intro hl
    obtain ⟨e, he, hid⟩ := h.byId id a hl
    refine ⟨h.listed a e he, ?_⟩
    unfold idAt
    rw [he]
    exact hid
  · rintro ⟨ha, rfl⟩
    obtain ⟨e, he⟩ := h.live a ha
    have hi := (h.entryOk a e he).indexed
    unfold idAt
    rw [he]
    exact hi

theorem Rep.findEntry_eq_some (h : m.Rep spare order) :
    m.findEntry id = some a ↔ a ∈ order ∧ m.idAt a = id := by
  unfold findEntry
  split
  · rename_i hid
    refine ⟨fun hn => (by cases hn), fun ⟨ha, hia⟩ => absurd (hia.trans hid) (h.idAt_ne_nil ha)⟩
  · exact h.lookup_byId

theorem Rep.findEntry_eq_none (h : m.Rep spare order) :
    m.findEntry id = none ↔ ∀ a ∈ order, m.idAt a ≠ id := by
  constructor
  · intro hn a ha hid
    rw [(h.findEntry_eq_some).mpr ⟨ha, hid⟩] at hn
    cases hn
  · intro hall
    rw [Option.eq_none_iff_forall_ne_some]
    intro a ha
    obtain ⟨hmem, hid⟩ := (h.findEntry_eq_some).mp ha
    exact hall a hmem hid

/-- The pairs without an entry. -/
theorem Rep.others_eq {x y : List Addr} (h : m.Rep spare (x ++ a :: y)) :
    others (m.idAt a) ((x ++ a :: y).map m.pairAt) = (x ++ y).map m.pairAt := by
  have hnodup := h.spells.nodup
  rw [List.nodup_middle, List.nodup_cons] at hnodup
  have hne : ∀ z ∈ x ++ y, (m.pairAt z).1 ≠ m.idAt a := fun z hz hid => by
    have hmem : z ∈ x ++ a :: y := by
      rw [List.mem_append] at hz
      rw [List.mem_append, List.mem_cons]
      exact hz.imp (fun h => h) Or.inr
    obtain rfl := h.idAt_inj hmem (by simp) hid
    exact hnodup.1 hz
  have hall : ∀ l : List Addr, (∀ z ∈ l, z ∈ x ++ y) →
      (l.map m.pairAt).filter (fun p => decide (p.1 ≠ m.idAt a)) = l.map m.pairAt := fun l hl => by
    rw [List.filter_eq_self]
    intro p hp
    obtain ⟨z, hz, rfl⟩ := List.mem_map.mp hp
    exact decide_eq_true (hne z (hl z hz))
  have hself : decide ((m.pairAt a).1 ≠ m.idAt a) = false := decide_eq_false (not_not.mpr rfl)
  unfold others
  rw [List.map_append, List.map_cons, List.filter_append, List.filter_cons, hself,
    hall x fun z hz => List.mem_append_left _ hz, hall y fun z hz => List.mem_append_right _ hz,
    List.map_append]
  rfl

/-- No entry has the id. -/
theorem Rep.others_of_absent (h : m.Rep spare order) (hn : m.findEntry id = none) :
    others id (order.map m.pairAt) = order.map m.pairAt := by
  unfold others
  rw [List.filter_eq_self]
  intro p hp
  obtain ⟨z, hz, rfl⟩ := List.mem_map.mp hp
  exact decide_eq_true (h.findEntry_eq_none.mp hn z hz)

/-- An id has the text of its entry. -/
theorem Rep.lookup_eq (h : m.Rep spare order) :
    (order.map m.pairAt).lookup id = (m.findEntry id).map fun a => (m.pairAt a).2 := by
  cases hf : m.findEntry id with
  | none =>
    rw [Option.map_none, List.lookup_eq_none_iff]
    intro p hp
    obtain ⟨z, hz, rfl⟩ := List.mem_map.mp hp
    rw [bne_iff_ne]
    exact Ne.symm (h.findEntry_eq_none.mp hf z hz)
  | some a =>
    obtain ⟨ha, rfl⟩ := (h.findEntry_eq_some).mp hf
    obtain ⟨x, y, rfl⟩ := List.append_of_mem ha
    rw [Option.map_some, List.lookup_eq_some_iff]
    refine ⟨x.map m.pairAt, y.map m.pairAt, ?_, fun p hp => ?_⟩
    · rw [List.map_append, List.map_cons]
      rfl
    · obtain ⟨z, hz, rfl⟩ := List.mem_map.mp hp
      rw [bne_iff_ne]
      intro hid
      have hza := h.idAt_inj ha (List.mem_append_left _ hz) hid
      have hnodup := h.spells.nodup
      rw [List.nodup_append] at hnodup
      exact hnodup.2.2 z hz a (List.mem_cons_self ..) hza.symm

/-! ### Lookups -/

theorem touch_block (m : ToolMemory) (a : Addr) : (m.touch a).block = m.block := by
  unfold ToolMemory.touch
  split
  · rfl
  · dsimp only
    split <;> rfl

theorem touch_byBlock (m : ToolMemory) (a : Addr) : (m.touch a).byBlock = m.byBlock := by
  unfold ToolMemory.touch
  split
  · rfl
  · dsimp only
    split <;> rfl

theorem touch_limits (m : ToolMemory) (a : Addr) :
    (m.touch a).maxEntries = m.maxEntries ∧ (m.touch a).maxBytes = m.maxBytes ∧
      (m.touch a).entries = m.entries ∧ (m.touch a).bytes = m.bytes := by
  unfold ToolMemory.touch
  split
  · exact ⟨rfl, rfl, rfl, rfl⟩
  · dsimp only
    split <;> exact ⟨rfl, rfl, rfl, rfl⟩

/-- Entries rewritten in place stand for the same pairs. -/
theorem pairAt_congr {m' : ToolMemory} {z : Addr}
    (hentry : (m'.entry z).map (fun e => (e.id, e.block)) =
      (m.entry z).map fun e => (e.id, e.block))
    (hblock : ∀ p, (m'.block p).map ToolMemoryBlock.dsml = (m.block p).map ToolMemoryBlock.dsml) :
    m'.pairAt z = m.pairAt z := by
  unfold pairAt idAt blockText
  cases hz : m.entry z with
  | none =>
    rw [hz, Option.map_none, Option.map_eq_none_iff] at hentry
    rw [hentry]
    rfl
  | some e =>
    rw [hz, Option.map_some, Option.map_eq_some_iff] at hentry
    obtain ⟨e', he', heq⟩ := hentry
    obtain ⟨hid, hb⟩ := Prod.mk.inj heq
    rw [he', Option.map_some, Option.map_some, Option.bind_some, Option.bind_some, hid, hb, hblock]

theorem touch_pairAt (m : ToolMemory) (a z : Addr) : (m.touch a).pairAt z = m.pairAt z := by
  refine pairAt_congr ?_ fun p => by rw [touch_block]
  unfold ToolMemory.touch
  cases ha : m.entry a with
  | none => rfl
  | some e =>
    have hset : (Function.update m.entry a (some { e with stamp := m.tick }) z).map
        (fun e => (e.id, e.block)) = (m.entry z).map fun e => (e.id, e.block) := by
      by_cases hza : z = a
      · rw [hza, Function.update_self, ha]
        rfl
      · rw [Function.update_of_ne hza]
    dsimp only
    split <;> exact hset

/-- **A touch** on the pairs. -/
theorem Rep.touch_pairs {x y : List Addr} (h : m.Rep none (x ++ a :: y)) :
    (m.touch a).Holds (m.pairAt a :: others (m.idAt a) ((x ++ a :: y).map m.pairAt)) := by
  refine ⟨a :: (x ++ y), h.touch, ?_⟩
  rw [List.map_congr_left fun z _ => touch_pairAt m a z, List.map_cons, h.others_eq]

/-- A lookup, for a memory that represents its entries. -/
theorem Rep.lookup_some (h : m.Rep none order) (ha : m.findEntry id = some a) :
    ∃ e blk, m.entry a = some e ∧ e.id = id ∧ m.block e.block = some blk ∧
      m.byBlock.lookup blk.dsml = some e.block ∧ m.pairAt a = (id, blk.dsml) ∧
      m.lookup id = (m.touch a, some (e.source, e.block, blk.dsml)) := by
  obtain ⟨hmem, hid⟩ := (h.findEntry_eq_some).mp ha
  obtain ⟨e, he⟩ := h.live a hmem
  obtain ⟨blk, hb, -⟩ := (h.entryOk a e he).block
  unfold idAt at hid
  rw [he] at hid
  refine ⟨e, blk, he, hid, hb, (h.blockOk _ blk hb).indexed, ?_, ?_⟩
  · unfold pairAt idAt blockText
    rw [he, Option.bind_some, hb]
    exact congrArg (·, blk.dsml) hid
  · unfold ToolMemory.lookup
    rw [ha]
    dsimp only
    rw [he]
    dsimp only
    rw [hb]

/-- **A lookup** gives the text of the id, and brings the id to the front. -/
theorem Holds.lookup {ps : List (Bytes × Bytes)} (h : m.Holds ps) (id : Bytes) :
    (m.lookup id).1.Holds (bring id ps) ∧ (m.lookup id).2.map (·.2.2) = ps.lookup id ∧
      (m.lookup id).1.byBlock = m.byBlock ∧ (m.lookup id).1.block = m.block ∧
      (∀ r, (m.lookup id).2 = some r → m.byBlock.lookup r.2.2 = some r.2.1 ∧
        ∃ blk, m.block r.2.1 = some blk ∧ blk.dsml = r.2.2) := by
  obtain ⟨order, hrep, rfl⟩ := h
  unfold bring
  rw [hrep.lookup_eq]
  cases hf : m.findEntry id with
  | none =>
    have heq : m.lookup id = (m, none) := by
      unfold ToolMemory.lookup
      rw [hf]
    rw [heq]
    exact ⟨⟨order, hrep, rfl⟩, rfl, rfl, rfl, fun r hr => by cases hr⟩
  | some a =>
    obtain ⟨e, blk, -, -, hblk, hindexed, hpair, heq⟩ := hrep.lookup_some hf
    obtain ⟨hmem, hid⟩ := (hrep.findEntry_eq_some).mp hf
    obtain ⟨x, y, rfl⟩ := List.append_of_mem hmem
    have htouch := hrep.touch_pairs
    rw [hpair, hid] at htouch
    rw [heq, Option.map_some, hpair]
    refine ⟨htouch, rfl, touch_byBlock m a, touch_block m a, fun r hr => ?_⟩
    obtain rfl := Option.some.inj hr
    exact ⟨hindexed, blk, hblk, rfl⟩

/-! ### Pruning -/

theorem weigh_of_lookup_none {w : Bytes → Addr → Nat} {t : Rax} (h : ∀ k, t.lookup k = none) :
    weigh w t = 0 := by
  have hnil : t.entries = [] := by
    cases he : t.entries with
    | nil => rfl
    | cons p l =>
      exfalso
      have hmem : p.1 ∈ t := by
        rw [AList.mem_keys]
        unfold AList.keys
        rw [he]
        exact List.mem_cons_self ..
      exact AList.lookup_eq_none.mp (h p.1) hmem
  unfold weigh
  rw [hnil]
  rfl

/-- Without entries the counters are zero. -/
theorem Rep.counters_nil (h : m.Rep none []) : m.entries = 0 ∧ m.bytes = 0 := by
  have hids : ∀ k, m.byId.lookup k = none := fun k => by
    rw [Option.eq_none_iff_forall_ne_some]
    intro a ha
    cases (h.lookup_byId.mp ha).1
  have hblocks : ∀ k, m.byBlock.lookup k = none := fun k => by
    rw [Option.eq_none_iff_forall_ne_some]
    intro b hb
    obtain ⟨blk, hblk, -⟩ := h.byBlock k b hb
    have hok := h.blockOk b blk hblk
    have hpos := hok.used.resolve_right (fun hs => by cases hs)
    rw [hok.refs] at hpos
    obtain ⟨z, hz⟩ := List.exists_mem_of_length_pos hpos
    obtain ⟨e, he, -⟩ := hok.names z hz
    cases h.listed z e he
  refine ⟨h.count, ?_⟩
  rw [h.bytes, weigh_of_lookup_none hids, weigh_of_lookup_none hblocks]

theorem Rep.not_overLimit_nil (h : m.Rep none []) : m.overLimit = false := by
  obtain ⟨hentries, hbytes⟩ := h.counters_nil
  have hmax : 0 < m.toolMemoryMaxEntries := by
    unfold toolMemoryMaxEntries
    split
    · assumption
    · decide
  unfold overLimit
  rw [hentries, hbytes, Bool.or_eq_false_iff, decide_eq_false_iff_not, decide_eq_false_iff_not]
  exact ⟨by omega, Nat.not_lt_zero _⟩

theorem removeEntry_pairAt {x y : List Addr} {z : Addr} (h : m.Rep none (x ++ a :: y))
    (hz : z ∈ x ++ y) : (m.removeEntry a).pairAt z = m.pairAt z := by
  obtain ⟨e, ha⟩ := h.live a (by simp)
  obtain ⟨blk, hb, hmem⟩ := (h.entryOk a e ha).block
  have hnodup := h.spells.nodup
  rw [List.nodup_middle, List.nodup_cons] at hnodup
  have hza : z ≠ a := fun hza => hnodup.1 (hza ▸ hz)
  obtain ⟨e', he'⟩ := h.live z (by
    rw [List.mem_append] at hz
    rw [List.mem_append, List.mem_cons]
    exact hz.imp (fun h => h) Or.inr)
  have hentry : (m.removeEntry a).entry z = some e' := by
    rw [removeEntry_entry ha hb, Function.update_of_ne hza, he']
  obtain ⟨blk', hb', hmem'⟩ := (h.entryOk z e' he').block
  have htext : ((m.removeEntry a).block e'.block).map ToolMemoryBlock.dsml =
      (m.block e'.block).map ToolMemoryBlock.dsml := by
    rw [removeEntry_eq ha hb]
    by_cases hbe : e'.block = e.block
    · -- the entry keeps the block alive
      rw [hbe, hb] at hb'
      obtain rfl := Option.some.inj hb'
      have hmem₂ := (List.mem_erase_of_ne hza).mpr hmem'
      have hlen := List.length_pos_of_mem hmem₂
      rw [List.length_erase_of_mem hmem] at hlen
      have hrefs := (h.blockOk e.block blk hb).refs
      rw [if_pos (by omega), hbe, hb]
      dsimp only
      rw [Function.update_self]
      rfl
    · split
      · dsimp only
        rw [Function.update_of_ne hbe]
      · dsimp only
        rw [Function.update_of_ne hbe]
  unfold pairAt idAt blockText
  rw [hentry, he', Option.bind_some, Option.bind_some, htext]

theorem removeEntry_limits (m : ToolMemory) (a : Addr) :
    (m.removeEntry a).maxEntries = m.maxEntries ∧ (m.removeEntry a).maxBytes = m.maxBytes := by
  unfold ToolMemory.removeEntry unlinkFromBlock releaseBlock
  split
  · exact ⟨rfl, rfl⟩
  · dsimp only
    split <;> split <;> first | exact ⟨rfl, rfl⟩ | (split <;> exact ⟨rfl, rfl⟩)

theorem pruneLoop_spec {fuel : Nat} (h : m.Rep none order) (hfuel : order.length ≤ fuel) :
    ∃ n, (pruneLoop fuel m).Holds ((order.map m.pairAt).take n) ∧
      (pruneLoop fuel m).overLimit = false ∧
      (pruneLoop fuel m).maxEntries = m.maxEntries ∧ (pruneLoop fuel m).maxBytes = m.maxBytes := by
  induction fuel generalizing m order with
  | zero =>
    obtain rfl := List.length_eq_zero_iff.mp (Nat.le_zero.mp hfuel)
    exact ⟨0, ⟨[], h, rfl⟩, h.not_overLimit_nil, rfl, rfl⟩
  | succ fuel ih =>
    unfold pruneLoop
    rw [h.spells.tail]
    rcases List.eq_nil_or_concat order with rfl | ⟨x, a, rfl⟩
    · exact ⟨0, ⟨[], h, rfl⟩, h.not_overLimit_nil, rfl, rfl⟩
    · rw [List.concat_eq_append] at h hfuel ⊢
      rw [List.getLast?_append_of_ne_nil _ (List.cons_ne_nil _ _), List.getLast?_singleton]
      dsimp only
      split
      · -- the last entry goes
        have hrem := h.removeEntry
        rw [List.append_nil] at hrem
        rw [List.length_append, List.length_singleton] at hfuel
        obtain ⟨n, hholds, hlimit, he, hb⟩ := ih hrem (by omega)
        obtain ⟨he', hb'⟩ := removeEntry_limits m a
        refine ⟨min n x.length, ?_, hlimit, he.trans he', hb.trans hb'⟩
        have hmap : x.map (m.removeEntry a).pairAt = x.map m.pairAt :=
          List.map_congr_left fun z hz => removeEntry_pairAt h (List.mem_append_left _ hz)
        rw [hmap] at hholds
        have htake : ((x ++ [a]).map m.pairAt).take (min n x.length) = (x.map m.pairAt).take n := by
          rw [List.map_append, ← List.take_take, List.take_left' (List.length_map _)]
        rw [htake]
        exact hholds
      · rename_i hlimit
        refine ⟨(x ++ [a]).length, ⟨_, h, ?_⟩, Bool.not_eq_true _ ▸ hlimit, rfl, rfl⟩
        rw [List.take_of_length_le (Nat.le_of_eq (List.length_map _))]

/-- **Pruning** drops the pairs used longest ago, until the limits hold. -/
theorem Holds.prune {ps : List (Bytes × Bytes)} (h : m.Holds ps) :
    ∃ n, m.prune.Holds (ps.take n) ∧ m.prune.overLimit = false ∧
      m.prune.maxEntries = m.maxEntries ∧ m.prune.maxBytes = m.maxBytes := by
  obtain ⟨order, hrep, rfl⟩ := h
  exact pruneLoop_spec hrep (Nat.le_of_eq hrep.count.symm)

/-! ### Putting -/

theorem markRam_rep (h : m.Rep spare order) (a : Addr) (source : ToolMemorySource) :
    (m.markRam a source).Rep spare order := by
  unfold markRam
  split
  · rename_i e he
    exact h.setEntry { e with source := .ram } he rfl rfl rfl m.clock
  · exact h

theorem markRam_pairAt (m : ToolMemory) (a z : Addr) (source : ToolMemorySource) :
    (m.markRam a source).pairAt z = m.pairAt z := by
  refine pairAt_congr ?_ fun p => ?_
  · unfold markRam
    split
    · rename_i e ha
      show (Function.update m.entry a (some { e with source := .ram }) z).map _ = _
      by_cases hza : z = a
      · rw [hza, Function.update_self, ha]
        rfl
      · rw [Function.update_of_ne hza]
    · rfl
  · unfold markRam
    split <;> rfl

theorem markRam_limits (m : ToolMemory) (a : Addr) (source : ToolMemorySource) :
    (m.markRam a source).maxEntries = m.maxEntries ∧
      (m.markRam a source).maxBytes = m.maxBytes := by
  unfold markRam
  split <;> exact ⟨rfl, rfl⟩

/-- A new id. -/
theorem Rep.putNew (h : m.Rep none order) (hid : id ≠ []) (hd : dsml ≠ [])
    (hnew : m.findEntry id = none) (source : ToolMemorySource) :
    ∃ m' : ToolMemory, m.putNew id dsml source = some m'.prune ∧
      m'.Holds ((id, dsml) :: order.map m.pairAt) ∧
      m'.maxEntries = m.maxEntries ∧ m'.maxBytes = m.maxBytes := by
  obtain ⟨b, m₁, hget, hrep₁, ⟨blk, hblk, hdsml⟩, hentry, hbyId, hkeep, he₁, hb₁⟩ := h.getBlock hd
  have hlookup : m₁.byId.lookup id = none := by
    rw [hbyId]
    unfold findEntry at hnew
    rw [if_neg hid] at hnew
    exact hnew
  obtain ⟨m₂, hadd, hrep₂, hentry₂, hblock₂, he₂, hb₂⟩ := hrep₁.addEntry hblk hid hlookup source
  -- the old pairs are as they were
  have hold : ∀ z ∈ order, m₂.pairAt z = m.pairAt z := fun z hz => by
    obtain ⟨e, he⟩ := h.live z hz
    obtain ⟨blk', hb', -⟩ := (h.entryOk z e he).block
    have hzf : z ≠ m₁.fresh := fun hzf => by
      have hnone := (hrep₁.fresh z (Nat.le_of_eq hzf.symm)).1
      rw [hentry, he] at hnone
      cases hnone
    have hz₂ : m₂.entry z = some e := by
      rw [hentry₂, Function.update_of_ne hzf, hentry, he]
    have htext : (m₂.block e.block).map ToolMemoryBlock.dsml =
        (m.block e.block).map ToolMemoryBlock.dsml := by
      rw [hblock₂, hb']
      by_cases hbe : e.block = b
      · have hsame := hkeep _ blk' hb'
        rw [hbe, hblk] at hsame
        rw [hbe, Function.update_self, Option.map_some, Option.map_some, ← Option.some.inj hsame]
      · rw [Function.update_of_ne hbe, hkeep _ blk' hb']
    unfold pairAt idAt blockText
    rw [hz₂, he, Option.bind_some, Option.bind_some, htext]
  have hfirst : m₂.pairAt m₁.fresh = (id, dsml) := by
    unfold pairAt idAt blockText
    rw [hentry₂, Function.update_self, Option.bind_some, hblock₂]
    dsimp only
    rw [Function.update_self, Option.map_some, Option.map_some]
    exact congrArg (id, ·) hdsml
  have hholds : m₂.Holds ((id, dsml) :: order.map m.pairAt) := by
    refine ⟨m₁.fresh :: order, hrep₂, ?_⟩
    rw [List.map_cons, hfirst, List.map_congr_left hold]
  refine ⟨m₂, ?_, hholds, he₂.trans he₁, hb₂.trans hb₁⟩
  unfold ToolMemory.putNew
  rw [hget, Option.bind_some, hadd, Option.map_some]

/-- **A put** brings the id with its text to the front, and prunes then. -/
theorem Holds.put {ps : List (Bytes × Bytes)} (h : m.Holds ps) (hid : id ≠ []) (hd : dsml ≠ [])
    (source : ToolMemorySource) :
    ∃ m' : ToolMemory, m.put id dsml source = some m'.prune ∧ m'.Holds ((id, dsml) :: others id ps) ∧
      m'.maxEntries = m.maxEntries ∧ m'.maxBytes = m.maxBytes := by
  obtain ⟨order, hrep, rfl⟩ := h
  unfold ToolMemory.put
  rw [if_neg (by rintro (h | h) <;> contradiction)]
  cases hf : m.findEntry id with
  | none =>
    dsimp only
    rw [hrep.others_of_absent hf]
    exact hrep.putNew hid hd hf source
  | some a =>
    dsimp only
    obtain ⟨hmem, rfl⟩ := (hrep.findEntry_eq_some).mp hf
    obtain ⟨x, y, rfl⟩ := List.append_of_mem hmem
    split
    · -- the id names this block already
      rename_i htext
      have hmark := markRam_rep hrep a source
      have htouch := hmark.touch_pairs
      have hpair : (m.markRam a source).pairAt a = (m.idAt a, dsml) := by
        rw [markRam_pairAt]
        unfold pairAt
        rw [htext]
        rfl
      have hid' : (m.markRam a source).idAt a = m.idAt a := congrArg Prod.fst (markRam_pairAt m a a source)
      rw [hpair, hid', List.map_congr_left fun z _ => markRam_pairAt m a z source] at htouch
      obtain ⟨he₁, hb₁, -⟩ := touch_limits (m.markRam a source) a
      obtain ⟨he₂, hb₂⟩ := markRam_limits m a source
      exact ⟨_, rfl, htouch, he₁.trans he₂, hb₁.trans hb₂⟩
    · have hrem := hrep.removeEntry
      have hmap : (x ++ y).map (m.removeEntry a).pairAt = (x ++ y).map m.pairAt :=
        List.map_congr_left fun z hz => removeEntry_pairAt hrep hz
      have hnodup := hrep.spells.nodup
      rw [List.nodup_middle, List.nodup_cons] at hnodup
      have hgone : (m.removeEntry a).findEntry (m.idAt a) = none := by
        rw [hrem.findEntry_eq_none]
        intro z hz hzid
        have hzid' : m.idAt z = m.idAt a := by
          rw [← hzid]
          exact (congrArg Prod.fst (removeEntry_pairAt hrep hz)).symm
        have hzmem : z ∈ x ++ a :: y := by
          rw [List.mem_append] at hz
          rw [List.mem_append, List.mem_cons]
          exact hz.imp (fun h => h) Or.inr
        obtain rfl := hrep.idAt_inj hzmem hmem hzid'
        exact hnodup.1 hz
      obtain ⟨m', hput, hholds, he, hb⟩ := hrem.putNew hid hd hgone source
      obtain ⟨he', hb'⟩ := removeEntry_limits m a
      rw [hmap] at hholds
      rw [hrep.others_eq]
      exact ⟨m', hput, hholds, he.trans he', hb.trans hb'⟩

/-! ### Runs -/

/-- What the server does with its memory. -/
inductive Op where
  | put (disabled : Bool) (id dsml : Bytes) (source : ToolMemorySource)
  | remember (disabled : Bool) (ids : List Bytes) (rawDsml : Bytes)
  | lookup (id : Bytes)
  | prune
  | attach (disabled : Bool) (stats : ToolReplayStats) (msgs : List ReplayCalls)

/-- One operation; there is no result when the server dies. -/
def step (m : ToolMemory) : Op → Option ToolMemory
  | .put disabled id dsml source => toolMemoryPutSource disabled m id dsml source
  | .remember disabled ids rawDsml => toolMemoryRemember disabled m ids rawDsml
  | .lookup id => some (m.lookup id).1
  | .prune => some m.prune
  | .attach disabled stats msgs => some (toolMemoryAttachToMessages disabled m stats msgs).1

/-- The ids of the messages that are looked up. -/
def attachIds (msgs : List ReplayCalls) : List Bytes :=
  (msgs.filter fun calls => calls.rawDsml = none).flatMap ReplayCalls.ids

/-- The ids an operation uses, the latest first: those it puts, and those it finds. -/
def used (m : ToolMemory) : Op → List Bytes
  | .put disabled id dsml _ => if disabled ∨ id = [] ∨ dsml = [] then [] else [id]
  | .remember disabled ids rawDsml =>
    if disabled ∨ rawDsml = [] then [] else (ids.filter fun id => id ≠ []).reverse
  | .lookup id => if (m.findEntry id).isSome then [id] else []
  | .prune => []
  | .attach disabled _ msgs =>
    if disabled then [] else ((attachIds msgs).filter fun id => (m.findEntry id).isSome).reverse

/-- A run, with the ids used so far, the latest first. -/
def run (m : ToolMemory) (uses : List Bytes) : List Op → Option (ToolMemory × List Bytes)
  | [] => some (m, uses)
  | op :: ops => (m.step op).bind fun m' => m'.run (m.used op ++ uses) ops

/-- **What holds of a memory** whose list runs through the entries `order`, after the ids `uses`
    were used. -/
structure WellFormed (m : ToolMemory) (uses : List Bytes) (order : List Addr) : Prop where
  /-- The links run through the entries, from the head and from the tail. -/
  list : m.links.Spells order
  /-- The index by id has the entries of the list, one for each id. -/
  index : ∀ id a, m.byId.lookup id = some a ↔ a ∈ order ∧ (m.entry a).map ToolMemoryEntry.id = some id
  /-- The entries of the list, and no others, are allocated. -/
  live : ∀ a, (m.entry a).isSome = true ↔ a ∈ order
  /-- The entry count. -/
  count : m.entries = order.length
  /-- The references of a block are the entries that name it. -/
  refs : ∀ b blk, m.block b = some blk →
    blk.refs = order.countP fun a => (m.entry a).map ToolMemoryEntry.block = some b
  /-- The index of blocks has the blocks with a reference. -/
  blocks : ∀ dsml b, m.byBlock.lookup dsml = some b ↔
    ∃ blk, m.block b = some blk ∧ blk.dsml = dsml ∧ 0 < blk.refs
  /-- The byte counter. -/
  bytes : m.bytes = (order.map fun a => ((m.entry a).map ToolMemoryEntry.bytes).getD 0).sum +
    (m.byBlock.entries.map fun p => ((m.block p.2).map ToolMemoryBlock.bytes).getD 0).sum
  /-- An entry counts for its id and the record, a block for its text and the record. -/
  sizes : (∀ a e, m.entry a = some e → e.bytes = entryBytes e.id) ∧
    ∀ b blk, m.block b = some blk → blk.bytes = blockBytes blk.dsml
  /-- The list is in the order of use. -/
  recent : Recent uses (order.map m.idAt)
  /-- The limits hold. -/
  limits : (m.entries : Int) ≤ m.toolMemoryMaxEntries ∧ m.bytes ≤ m.toolMemoryMaxBytes

/-- What a run keeps. -/
def Kept (m : ToolMemory) (uses : List Bytes) : Prop :=
  ∃ ps, m.Holds ps ∧ Recent uses (ps.map Prod.fst) ∧ m.overLimit = false

theorem kept_empty (maxEntries : Int) (maxBytes : Nat) : (empty maxEntries maxBytes).Kept [] :=
  ⟨[], ⟨[], rep_empty maxEntries maxBytes, rfl⟩, Recent.nil [],
    (rep_empty maxEntries maxBytes).not_overLimit_nil⟩

theorem Holds.findEntry_isSome {ps : List (Bytes × Bytes)} (h : m.Holds ps) (id : Bytes) :
    (m.findEntry id).isSome = (ps.lookup id).isSome := by
  obtain ⟨order, hrep, rfl⟩ := h
  rw [hrep.lookup_eq, Option.isSome_map]

theorem map_fst_others (id : Bytes) (ps : List (Bytes × Bytes)) :
    (others id ps).map Prod.fst = (ps.map Prod.fst).filter fun i => i ≠ id := by
  unfold others
  rw [List.filter_map]
  rfl

theorem lookup_others {j : Bytes} (hj : j ≠ id) (ps : List (Bytes × Bytes)) :
    (others id ps).lookup j = ps.lookup j := by
  unfold others
  induction ps with
  | nil => rfl
  | cons p ps ih =>
    obtain ⟨i, d⟩ := p
    by_cases hi : i = id
    · have hji : (j == i) = false := beq_eq_false_iff_ne.mpr fun h => hj (h.trans hi)
      rw [List.filter_cons_of_neg (by simp [hi]), ih, List.lookup_cons, hji]
    · rw [List.filter_cons_of_pos (by simp [hi]), List.lookup_cons, List.lookup_cons, ih]

theorem lookup_bring (id j : Bytes) (ps : List (Bytes × Bytes)) :
    (bring id ps).lookup j = ps.lookup j := by
  unfold bring
  cases hl : ps.lookup id with
  | none => rfl
  | some d =>
    dsimp only
    by_cases hj : j = id
    · rw [hj, List.lookup_cons_self, hl]
    · rw [List.lookup_cons, beq_eq_false_iff_ne.mpr hj]
      exact lookup_others hj ps

theorem Kept.lookup {uses : List Bytes} (h : m.Kept uses) (id : Bytes) :
    (m.lookup id).1.Kept (m.used (.lookup id) ++ uses) ∧
      ∀ j, ((m.lookup id).1.findEntry j).isSome = (m.findEntry j).isSome := by
  obtain ⟨ps, hholds, hrecent, hlimit⟩ := h
  obtain ⟨hbring, -⟩ := hholds.lookup id
  refine ⟨⟨bring id ps, hbring, ?_, ?_⟩, fun j => ?_⟩
  · unfold used
    dsimp only
    rw [hholds.findEntry_isSome]
    unfold bring
    cases hl : ps.lookup id with
    | none => exact hrecent
    | some d =>
      rw [List.map_cons, map_fst_others]
      exact hrecent.use id
  · -- a lookup changes none of the counters
    have hsame : (m.lookup id).1.overLimit = m.overLimit := by
      unfold ToolMemory.lookup
      split
      · rfl
      · split
        · rfl
        · split
          · rfl
          · obtain ⟨h₁, h₂, h₃, h₄⟩ := touch_limits m ‹_›
            unfold overLimit toolMemoryMaxEntries toolMemoryMaxBytes
            rw [h₁, h₂, h₃, h₄]
    rw [hsame, hlimit]
  · rw [hbring.findEntry_isSome, hholds.findEntry_isSome, lookup_bring]

/-- Many lookups. -/
theorem Kept.lookups {uses : List Bytes} (h : m.Kept uses) (ids : List Bytes) :
    (ids.foldl (fun m id => (m.lookup id).1) m).Kept
      ((ids.filter fun id => (m.findEntry id).isSome).reverse ++ uses) := by
  induction ids generalizing m uses with
  | nil => exact h
  | cons id ids ih =>
    obtain ⟨hkept, hsame⟩ := h.lookup id
    have hrest := ih hkept
    rw [List.foldl_cons, List.filter_cons]
    simp only [hsame] at hrest
    unfold used at hrest
    dsimp only at hrest
    split
    · rename_i hfound
      rw [if_pos hfound] at hrest
      rwa [List.reverse_cons, List.append_assoc]
    · rename_i hfound
      rwa [if_neg hfound] at hrest

theorem matchCalls_memory (m : ToolMemory) (ids : List Bytes) :
    (matchCalls m ids).memory = ids.foldl (fun m id => (m.lookup id).1) m := by
  have hcall : ∀ t : Matching, ∀ id, (t.call id).memory = (t.memory.lookup id).1 := fun t id => by
    unfold Matching.call
    rcases hl : t.memory.lookup id with ⟨m', _ | ⟨source, block, text⟩⟩ <;> rfl
  unfold matchCalls
  have hfold : ∀ t : Matching, (ids.foldl Matching.call t).memory =
      ids.foldl (fun m id => (m.lookup id).1) t.memory := by
    induction ids with
    | nil => exact fun t => rfl
    | cons id ids ih =>
      intro t
      rw [List.foldl_cons, List.foldl_cons, ih, hcall]
  exact hfold _

theorem attachToMessage_memory (m : ToolMemory) (stats : ToolReplayStats) (calls : ReplayCalls) :
    (attachToMessage m stats calls).1 =
      (attachIds [calls]).foldl (fun m id => (m.lookup id).1) m := by
  unfold attachToMessage attachIds
  by_cases hraw : calls.rawDsml = none
  · have hids : [calls].filter (fun calls => decide (calls.rawDsml = none)) = [calls] := by
      simp [hraw]
    rw [hids, List.flatMap_cons, List.flatMap_nil, List.append_nil]
    by_cases hnil : calls.ids = []
    · simp [hnil]
    · rw [if_neg (by simp [hraw, hnil]), ← matchCalls_memory]
      dsimp only
      split <;> rfl
  · have hids : [calls].filter (fun calls => decide (calls.rawDsml = none)) = [] := by
      simp [hraw]
    rw [hids, if_pos (Or.inr hraw)]
    rfl

theorem attachLoop_memory (m : ToolMemory) (stats : ToolReplayStats) (msgs : List ReplayCalls) :
    (attachLoop m stats msgs).1 = (attachIds msgs).foldl (fun m id => (m.lookup id).1) m := by
  induction msgs generalizing m stats with
  | nil => rfl
  | cons calls msgs ih =>
    have hsplit : attachIds (calls :: msgs) = attachIds [calls] ++ attachIds msgs := by
      unfold attachIds
      rw [← List.flatMap_append, ← List.filter_append]
      rfl
    unfold attachLoop
    dsimp only
    rw [ih, attachToMessage_memory, hsplit, List.foldl_append]

theorem Kept.put {uses : List Bytes} (h : m.Kept uses) (id dsml : Bytes)
    (source : ToolMemorySource) :
    ∃ m', m.put id dsml source = some m' ∧
      m'.Kept (m.used (.put false id dsml source) ++ uses) := by
  by_cases hnil : id = [] ∨ dsml = []
  · refine ⟨m, ?_, ?_⟩
    · unfold ToolMemory.put
      rw [if_pos hnil]
    · unfold used
      dsimp only
      rw [if_pos (Or.inr hnil)]
      exact h
  · obtain ⟨hid, hd⟩ := not_or.mp hnil
    obtain ⟨ps, hholds, hrecent, -⟩ := h
    obtain ⟨m', hput, hholds', -⟩ := hholds.put hid hd source
    obtain ⟨n, hpruned, hlimit, -⟩ := hholds'.prune
    refine ⟨_, hput, _, hpruned, ?_, hlimit⟩
    unfold used
    dsimp only
    rw [if_neg (by simp [hid, hd]), List.map_take, List.map_cons, map_fst_others]
    exact (hrecent.use id).sublist (List.take_sublist ..)

theorem Kept.remember {uses : List Bytes} (h : m.Kept uses) {rawDsml : Bytes} (hraw : rawDsml ≠ [])
    (ids : List Bytes) :
    ∃ m', ids.foldlM (fun m id => m.put id rawDsml .ram) m = some m' ∧
      m'.Kept ((ids.filter fun id => id ≠ []).reverse ++ uses) := by
  induction ids generalizing m uses with
  | nil => exact ⟨m, rfl, h⟩
  | cons id ids ih =>
    obtain ⟨m₁, hput, hkept₁⟩ := h.put id rawDsml .ram
    obtain ⟨m₂, hrest, hkept₂⟩ := ih hkept₁
    refine ⟨m₂, ?_, ?_⟩
    · rw [List.foldlM_cons, hput]
      exact hrest
    · unfold used at hkept₂
      dsimp only at hkept₂
      by_cases hid : id = []
      · rw [if_pos (Or.inr (Or.inl hid))] at hkept₂
        simpa [hid] using hkept₂
      · rw [if_neg (by simp [hid, hraw])] at hkept₂
        simpa [hid] using hkept₂

/-- **One operation.** -/
theorem Kept.step {uses : List Bytes} (h : m.Kept uses) (op : Op) :
    ∃ m', m.step op = some m' ∧ m'.Kept (m.used op ++ uses) := by
  cases op with
  | put disabled id dsml source =>
    unfold ToolMemory.step toolMemoryPutSource
    cases disabled with
    | true => exact ⟨m, rfl, h⟩
    | false => exact h.put id dsml source
  | remember disabled ids rawDsml =>
    unfold ToolMemory.step toolMemoryRemember used
    dsimp only
    by_cases hoff : disabled = true ∨ rawDsml = []
    · rw [if_pos hoff, if_pos hoff]
      exact ⟨m, rfl, h⟩
    · rw [if_neg hoff, if_neg hoff]
      exact h.remember (not_or.mp hoff).2 ids
  | lookup id => exact ⟨_, rfl, (h.lookup id).1⟩
  | prune =>
    obtain ⟨ps, hholds, hrecent, -⟩ := h
    obtain ⟨n, hpruned, hlimit, -⟩ := hholds.prune
    refine ⟨_, rfl, _, hpruned, ?_, hlimit⟩
    rw [List.map_take]
    exact hrecent.sublist (List.take_sublist ..)
  | attach disabled stats msgs =>
    refine ⟨_, rfl, ?_⟩
    unfold toolMemoryAttachToMessages used
    cases disabled with
    | true => exact h
    | false =>
      dsimp only
      rw [if_neg (by decide), if_neg (by decide), attachLoop_memory]
      exact h.lookups _

/-- **A run.** -/
theorem Kept.run {uses : List Bytes} (h : m.Kept uses) (ops : List Op) :
    ∃ m' uses', m.run uses ops = some (m', uses') ∧ m'.Kept uses' := by
  induction ops generalizing m uses with
  | nil => exact ⟨m, uses, rfl, h⟩
  | cons op ops ih =>
    obtain ⟨m₁, hstep, hkept⟩ := h.step op
    obtain ⟨m', uses', hrun, hkept'⟩ := ih hkept
    refine ⟨m', uses', ?_, hkept'⟩
    unfold ToolMemory.run
    rw [hstep]
    exact hrun

/-! ### What that says of the memory -/

theorem Rep.sum_entries (h : m.Rep none order) :
    weigh (fun id _ => entryBytes id) m.byId =
      (order.map fun a => ((m.entry a).map ToolMemoryEntry.bytes).getD 0).sum := by
  have hkeys : (order.map m.idAt).Perm m.byId.keys := by
    refine (List.perm_ext_iff_of_nodup ?_ m.byId.keys_nodup).mpr fun id => ?_
    · exact List.Nodup.map_on (fun a ha a' ha' => h.idAt_inj ha ha') h.spells.nodup
    · rw [← AList.mem_keys, ← AList.lookup_isSome, Option.isSome_iff_exists, List.mem_map]
      exact exists_congr fun a => (h.lookup_byId).symm
  have hsum : weigh (fun id _ => entryBytes id) m.byId = (m.byId.keys.map entryBytes).sum := by
    unfold weigh AList.keys List.keys
    rw [List.map_map]
    rfl
  rw [hsum, ← (hkeys.map entryBytes).sum_eq, List.map_map]
  refine congrArg List.sum (List.map_congr_left fun a ha => ?_)
  obtain ⟨e, he⟩ := h.live a ha
  have hbytes := (h.entryOk a e he).bytes
  show entryBytes (m.idAt a) = _
  unfold idAt
  rw [he]
  exact hbytes.symm

theorem Rep.sum_blocks (h : m.Rep none order) :
    weigh (fun d _ => blockBytes d) m.byBlock =
      (m.byBlock.entries.map fun p => ((m.block p.2).map ToolMemoryBlock.bytes).getD 0).sum := by
  unfold weigh
  refine congrArg List.sum (List.map_congr_left fun p hp => ?_)
  have hlookup : m.byBlock.lookup p.1 = some p.2 := AList.mem_lookup_iff.mpr hp
  obtain ⟨blk, hb, hd⟩ := h.byBlock p.1 p.2 hlookup
  have hbytes := (h.blockOk p.2 blk hb).bytes
  rw [hd] at hbytes
  rw [hb]
  exact hbytes.symm

theorem Rep.refs_eq (h : m.Rep none order) {b : Addr} {blk : ToolMemoryBlock}
    (hb : m.block b = some blk) :
    blk.refs = order.countP fun a => (m.entry a).map ToolMemoryEntry.block = some b := by
  have hok := h.blockOk b blk hb
  rw [hok.refs, List.countP_eq_length_filter]
  refine List.Perm.length_eq ((List.perm_ext_iff_of_nodup hok.nodup
    (h.spells.nodup.filter _)).mpr fun a => ?_)
  rw [List.mem_filter, decide_eq_true_eq, Option.map_eq_some_iff]
  constructor
  · intro ha
    obtain ⟨e, he, heb⟩ := hok.names a ha
    exact ⟨h.listed a e he, e, he, heb⟩
  · rintro ⟨-, e, he, rfl⟩
    obtain ⟨blk', hb', hmem⟩ := (h.entryOk a e he).block
    rw [hb] at hb'
    rwa [Option.some.inj hb']

theorem Kept.wellFormed {uses : List Bytes} (h : m.Kept uses) : ∃ order, m.WellFormed uses order := by
  obtain ⟨ps, ⟨order, hrep, rfl⟩, hrecent, hlimit⟩ := h
  have hids : ((order.map m.pairAt).map Prod.fst) = order.map m.idAt := by
    rw [List.map_map]
    rfl
  unfold overLimit at hlimit
  rw [Bool.or_eq_false_iff, decide_eq_false_iff_not, decide_eq_false_iff_not] at hlimit
  refine ⟨order, hrep.spells, fun id a => ?_, fun a => ?_, hrep.count, fun b blk => hrep.refs_eq,
    fun d b => ?_, ?_, ⟨fun a e he => (hrep.entryOk a e he).bytes,
      fun b blk hb => (hrep.blockOk b blk hb).bytes⟩, hids ▸ hrecent, by omega, by omega⟩
  · rw [hrep.lookup_byId]
    refine and_congr_right fun ha => ?_
    obtain ⟨e, he⟩ := hrep.live a ha
    unfold idAt
    rw [he, Option.map_some, Option.getD_some, Option.some_inj]
  · rw [Option.isSome_iff_exists]
    exact ⟨fun ⟨e, he⟩ => hrep.listed a e he, hrep.live a⟩
  · constructor
    · intro hd
      obtain ⟨blk, hb, hdsml⟩ := hrep.byBlock d b hd
      exact ⟨blk, hb, hdsml, (hrep.blockOk b blk hb).used.resolve_right (fun hs => by cases hs)⟩
    · rintro ⟨blk, hb, rfl, -⟩
      exact (hrep.blockOk b blk hb).indexed
  · rw [hrep.bytes, hrep.sum_entries, hrep.sum_blocks]

end ToolMemory

end DS4.Server
