import DS4.Server.ToolMap
import Mathlib.Algebra.BigOperators.Group.List.Basic
import Mathlib.Algebra.Order.BigOperators.Group.Finset
import Mathlib.Data.List.Infix

namespace DS4.Server

/-!
# Server — a tool map written and loaded

* `pairBytes`, `Holds.overLimit_iff` — when a memory is within its limits.
* `ToolMemory.Sound` — a memory, its pairs, and the marks of its blocks; `Sound.write_spec` — what is
  written for a text.
* `encodeMap`, `load_sub`, `load_all` — what is loaded from a map.
* `tool_map_round_trip_iff` — exactly when a map brings back the pairs of a text;
  `not_roundTrips_nestedEnd` — a parameter that holds an end marker.
-/

open DS4.Lib

namespace ToolMemory

variable {m : ToolMemory} {order : List Addr} {ps qs : List (Bytes × Bytes)}

/-! ### The limits -/

/-- What the pairs of a memory count for: an entry each, and a block for each text. -/
def pairBytes (ps : List (Bytes × Bytes)) : Nat :=
  (ps.map fun p => entryBytes p.1).sum + (ps.map Prod.snd).toFinset.sum blockBytes

theorem pairBytes_append (ps qs : List (Bytes × Bytes)) : pairBytes qs ≤ pairBytes (ps ++ qs) := by
  unfold pairBytes
  have hsub : (qs.map Prod.snd).toFinset ⊆ ((ps ++ qs).map Prod.snd).toFinset := by
    intro d hd
    rw [List.mem_toFinset] at hd ⊢
    rw [List.map_append]
    exact List.mem_append_right _ hd
  have htexts : (qs.map Prod.snd).toFinset.sum blockBytes ≤
      ((ps ++ qs).map Prod.snd).toFinset.sum blockBytes := Finset.sum_le_sum_of_subset hsub
  have hentries : (qs.map fun p => entryBytes p.1).sum ≤
      ((ps ++ qs).map fun p => entryBytes p.1).sum := by
    rw [List.map_append, List.sum_append]
    exact Nat.le_add_left _ _
  exact Nat.add_le_add hentries htexts

theorem pairBytes_perm (h : ps.Perm qs) : pairBytes ps = pairBytes qs := by
  unfold pairBytes
  have htexts : (ps.map Prod.snd).toFinset = (qs.map Prod.snd).toFinset := by
    ext d
    rw [List.mem_toFinset, List.mem_toFinset, (h.map Prod.snd).mem_iff]
  rw [(h.map _).sum_eq, htexts]

/-- The text of an entry is indexed, and only such texts are. -/
theorem Rep.mem_texts (h : m.Rep none order) {d : Bytes} :
    d ∈ m.byBlock ↔ d ∈ (order.map m.pairAt).map Prod.snd := by
  rw [← AList.lookup_isSome, Option.isSome_iff_exists, List.map_map]
  constructor
  · rintro ⟨b, hb⟩
    obtain ⟨blk, hblk, hd⟩ := h.byBlock d b hb
    have hok := h.blockOk b blk hblk
    have hpos := hok.used.resolve_right (fun hs => by cases hs)
    rw [hok.refs] at hpos
    obtain ⟨a, ha⟩ := List.exists_mem_of_length_pos hpos
    obtain ⟨e, he, heb⟩ := hok.names a ha
    refine List.mem_map.mpr ⟨a, h.listed a e he, ?_⟩
    show (m.blockText a).getD [] = d
    unfold blockText
    rw [he, Option.bind_some, heb, hblk]
    exact hd
  · intro hd
    obtain ⟨a, ha, rfl⟩ := List.mem_map.mp hd
    obtain ⟨e, he⟩ := h.live a ha
    obtain ⟨blk, hblk, -⟩ := (h.entryOk a e he).block
    refine ⟨e.block, ?_⟩
    have htext : (Prod.snd ∘ m.pairAt) a = blk.dsml := by
      show (m.blockText a).getD [] = blk.dsml
      unfold blockText
      rw [he, Option.bind_some, hblk]
      rfl
    rw [htext]
    exact (h.blockOk _ blk hblk).indexed

theorem Rep.idAt_nodup (h : m.Rep none order) : ((order.map m.pairAt).map Prod.fst).Nodup := by
  rw [List.map_map]
  exact List.Nodup.map_on (fun a ha a' ha' => h.idAt_inj ha ha') h.spells.nodup

/-- The byte counter, by pairs. -/
theorem Rep.bytes_eq (h : m.Rep none order) : m.bytes = pairBytes (order.map m.pairAt) := by
  have hentries : weigh (fun id _ => entryBytes id) m.byId =
      ((order.map m.pairAt).map fun p => entryBytes p.1).sum := by
    rw [h.sum_entries, List.map_map]
    refine congrArg List.sum (List.map_congr_left fun a ha => ?_)
    obtain ⟨e, he⟩ := h.live a ha
    show ((m.entry a).map ToolMemoryEntry.bytes).getD 0 = entryBytes (m.idAt a)
    unfold idAt
    rw [he]
    exact (h.entryOk a e he).bytes
  have hblocks : weigh (fun d _ => blockBytes d) m.byBlock =
      ((order.map m.pairAt).map Prod.snd).toFinset.sum blockBytes := by
    have hkeys : weigh (fun d _ => blockBytes d) m.byBlock = (m.byBlock.keys.map blockBytes).sum := by
      unfold weigh AList.keys List.keys
      rw [List.map_map]
      rfl
    rw [hkeys, ← List.sum_toFinset blockBytes m.byBlock.keys_nodup]
    refine congrArg (fun s => Finset.sum s blockBytes) ?_
    ext d
    rw [List.mem_toFinset, List.mem_toFinset, ← AList.mem_keys]
    exact h.mem_texts
  rw [h.bytes, hentries, hblocks]
  rfl

/-- **The limits**, by pairs. -/
theorem Holds.overLimit_iff (h : m.Holds ps) :
    m.overLimit = false ↔ (ps.length : Int) ≤ m.toolMemoryMaxEntries ∧
      pairBytes ps ≤ m.toolMemoryMaxBytes := by
  obtain ⟨order, hrep, rfl⟩ := h
  unfold overLimit
  rw [hrep.count, hrep.bytes_eq, List.length_map, Bool.or_eq_false_iff, decide_eq_false_iff_not,
    decide_eq_false_iff_not, Int.not_lt, Nat.not_lt]

/-- There is nothing to prune within the limits. -/
theorem prune_eq_self (h : m.overLimit = false) : m.prune = m := by
  unfold prune
  cases m.entries with
  | zero => rfl
  | succ n =>
    unfold pruneLoop
    split
    · rfl
    · rw [if_neg (by rw [h]; decide)]

/-- The pairs of a memory, but for their order. -/
theorem Holds.perm (h : m.Holds ps) (h' : m.Holds qs) : ps.Perm qs := by
  obtain ⟨order, hrep, rfl⟩ := h
  obtain ⟨order', hrep', rfl⟩ := h'
  refine List.Perm.map _ ((List.perm_ext_iff_of_nodup hrep.spells.nodup hrep'.spells.nodup).mpr
    fun a => ?_)
  constructor
  · intro ha
    obtain ⟨e, he⟩ := hrep.live a ha
    exact hrep'.listed a e he
  · intro ha
    obtain ⟨e, he⟩ := hrep'.live a ha
    exact hrep.listed a e he

theorem Holds.ids_nodup (h : m.Holds ps) : (ps.map Prod.fst).Nodup := by
  obtain ⟨order, hrep, rfl⟩ := h
  exact hrep.idAt_nodup

/-- No id and no text is empty. -/
theorem Holds.ne_nil (h : m.Holds ps) {p : Bytes × Bytes} (hp : p ∈ ps) : p.1 ≠ [] ∧ p.2 ≠ [] := by
  obtain ⟨order, hrep, rfl⟩ := h
  obtain ⟨a, ha, rfl⟩ := List.mem_map.mp hp
  refine ⟨hrep.idAt_ne_nil ha, ?_⟩
  obtain ⟨e, he⟩ := hrep.live a ha
  obtain ⟨blk, hblk, -⟩ := (hrep.entryOk a e he).block
  show (m.blockText a).getD [] ≠ []
  unfold blockText
  rw [he, Option.bind_some, hblk]
  exact (hrep.blockOk _ blk hblk).dsml

/-! ### The records of a scan -/

variable {done ds : List Bytes} {scan : Nat}

/-- **The records** are the pairs whose text is in the list, … -/
theorem Rep.mem_newRecords (h : m.Rep none order) {p : Bytes × Bytes} :
    p ∈ m.newRecords done ds ↔ p.2 ∈ ds ∧ p.2 ∉ done ∧ p ∈ order.map m.pairAt := by
  -- the records of one block
  have hblock : ∀ dsml blk, m.blockOf dsml = some blk →
      (p ∈ (m.idsOf blk).map (fun id => (id, blk.dsml)) ↔ p.2 = dsml ∧ p ∈ order.map m.pairAt) := by
    intro dsml blk hof
    obtain ⟨rfl, b, hl, hblk⟩ := (h.blockOf_eq_some).mp hof
    have hok := h.blockOk b blk hblk
    unfold idsOf
    rw [List.map_map]
    constructor
    · intro hp
      obtain ⟨a, ha, rfl⟩ := List.mem_map.mp hp
      obtain ⟨e, he, heb⟩ := hok.names a ha
      refine ⟨rfl, List.mem_map.mpr ⟨a, h.listed a e he, ?_⟩⟩
      unfold pairAt blockText
      rw [he, Option.bind_some, heb, hblk]
      rfl
    · rintro ⟨hd, hp⟩
      obtain ⟨a, ha, rfl⟩ := List.mem_map.mp hp
      obtain ⟨e, he⟩ := h.live a ha
      obtain ⟨blk', hblk', hmem⟩ := (h.entryOk a e he).block
      have hd' : blk'.dsml = blk.dsml := by
        rw [← hd]
        unfold pairAt blockText
        rw [he, Option.bind_some, hblk']
        rfl
      have hi := (h.blockOk e.block blk' hblk').indexed
      rw [hd', hl] at hi
      obtain rfl := Option.some.inj hi
      rw [hblk] at hblk'
      obtain rfl := Option.some.inj hblk'
      exact List.mem_map.mpr ⟨a, hmem, by rw [← hd]; rfl⟩
  induction ds generalizing done with
  | nil => exact ⟨fun hp => absurd hp List.not_mem_nil, fun hp => absurd hp.1 List.not_mem_nil⟩
  | cons dsml ds ih =>
    unfold newRecords
    have hrest : ∀ known, p ∈ m.newRecords known ds ↔
        p.2 ∈ ds ∧ p.2 ∉ known ∧ p ∈ order.map m.pairAt := fun known => ih
    by_cases hdone : dsml ∈ done
    · rw [if_pos hdone, hrest, List.mem_cons]
      constructor
      · rintro ⟨h₁, h₂, h₃⟩
        exact ⟨Or.inr h₁, h₂, h₃⟩
      · rintro ⟨h₁, h₂, h₃⟩
        exact ⟨h₁.resolve_left fun heq => h₂ (heq ▸ hdone), h₂, h₃⟩
    · rw [if_neg hdone]
      cases hof : m.blockOf dsml with
      | none =>
        rw [hrest, List.mem_cons]
        constructor
        · rintro ⟨h₁, h₂, h₃⟩
          exact ⟨Or.inr h₁, h₂, h₃⟩
        rintro ⟨h₁, h₂, h₃⟩
        refine ⟨h₁.resolve_left fun heq => ?_, h₂, h₃⟩
        -- a text that is remembered has a block
        have htext := (h.mem_texts).mpr (List.mem_map_of_mem h₃)
        rw [heq, ← AList.lookup_isSome, Option.isSome_iff_exists] at htext
        obtain ⟨b, hb⟩ := htext
        obtain ⟨blk, hblk, hd⟩ := h.byBlock dsml b hb
        rw [(h.blockOf_eq_some).mpr ⟨hd, b, hb, hblk⟩] at hof
        cases hof
      | some blk =>
        dsimp only
        rw [List.mem_append, hblock dsml blk hof, hrest, List.mem_cons, List.mem_cons]
        constructor
        · rintro (⟨heq, hp⟩ | ⟨h₁, h₂, h₃⟩)
          · exact ⟨Or.inl heq, heq ▸ hdone, hp⟩
          · exact ⟨Or.inr h₁, fun hd => h₂ (Or.inr hd), h₃⟩
        · rintro ⟨h₁, h₂, h₃⟩
          by_cases heq : p.2 = dsml
          · exact Or.inl ⟨heq, h₃⟩
          · exact Or.inr ⟨h₁.resolve_left heq, fun hd => hd.elim heq h₂, h₃⟩

/-- … each of them once. -/
theorem Rep.newRecords_nodup (h : m.Rep none order) : (m.newRecords done ds).Nodup := by
  induction ds generalizing done with
  | nil => exact List.nodup_nil
  | cons dsml ds ih =>
    unfold newRecords
    by_cases hdone : dsml ∈ done
    · rw [if_pos hdone]
      exact ih
    · rw [if_neg hdone]
      cases hof : m.blockOf dsml with
      | none => exact ih
      | some blk =>
        obtain ⟨rfl, b, -, hblk⟩ := (h.blockOf_eq_some).mp hof
        have hok := h.blockOk b blk hblk
        refine List.nodup_append.mpr ⟨?_, ih, ?_⟩
        · unfold idsOf
          rw [List.map_map]
          refine List.Nodup.map_on (fun a ha a' ha' heq => ?_) hok.nodup
          obtain ⟨e, he, -⟩ := hok.names a ha
          obtain ⟨e', he', -⟩ := hok.names a' ha'
          exact h.idAt_inj (h.listed a e he) (h.listed a' e' he') (Prod.mk.inj heq).1
        · -- the later records have other texts
          intro p hp q hq heq
          obtain ⟨id, -, rfl⟩ := List.mem_map.mp hp
          subst heq
          exact (h.mem_newRecords.mp hq).2.1 List.mem_cons_self

/-- Only ids and texts of the blocks count. -/
theorem newRecords_congr {m' : ToolMemory}
    (h : ∀ d, (m'.blockOf d).map (fun blk => (m'.idsOf blk, blk.dsml)) =
      (m.blockOf d).map fun blk => (m.idsOf blk, blk.dsml)) (done ds : List Bytes) :
    m'.newRecords done ds = m.newRecords done ds := by
  induction ds generalizing done with
  | nil => rfl
  | cons dsml ds ih =>
    unfold newRecords
    by_cases hdone : dsml ∈ done
    · rw [if_pos hdone, if_pos hdone, ih]
    · rw [if_neg hdone, if_neg hdone]
      have hd := h dsml
      cases hof : m.blockOf dsml with
      | none =>
        rw [hof, Option.map_none, Option.map_eq_none_iff] at hd
        rw [hd]
        exact ih done
      | some blk =>
        rw [hof, Option.map_some, Option.map_eq_some_iff] at hd
        obtain ⟨blk', hof', heq⟩ := hd
        obtain ⟨hids, htext⟩ := Prod.mk.inj heq
        rw [hof']
        dsimp only
        rw [hids, htext, ih]

/-! ### A map as bytes -/

/-- The bytes of a map; an empty one has none. -/
def encodeMap (rs : List (Bytes × Bytes)) : Bytes :=
  if rs = [] then [] else toolMapMagic ++ leBytes 4 rs.length ++ rs.flatMap encodeEntry

/-- The bytes of an entry. -/
def recordBytes (p : Bytes × Bytes) : Nat := 8 + p.1.length + p.2.length

theorem encodeEntry_length (p : Bytes × Bytes) : (encodeEntry p).length = recordBytes p := by
  unfold encodeEntry recordBytes
  rw [List.length_append, List.length_append, List.length_append, leBytes_length, leBytes_length]

theorem flatMap_encodeEntry_length (rs : List (Bytes × Bytes)) :
    (rs.flatMap encodeEntry).length = (rs.map recordBytes).sum := by
  rw [List.length_flatMap]
  congr 1
  exact List.map_congr_left fun p _ => encodeEntry_length p

/-- **The measuring loop** counts what is written. -/
theorem foldlM_measureEntry {rs : List (Bytes × Bytes)} {t t' : Nat × Nat} (ht : t.1 ≤ UINT32_MAX)
    (h : rs.foldlM (fun t p => measureEntry p.2 t p.1) t = some t') :
    t'.1 = t.1 + (rs.filter Short).length ∧
      t'.2 = t.2 + ((rs.filter Short).map recordBytes).sum ∧ t'.1 ≤ UINT32_MAX := by
  induction rs generalizing t with
  | nil =>
    obtain rfl := Option.some.inj h
    exact ⟨rfl, rfl, ht⟩
  | cons p rs ih =>
    rw [List.foldlM_cons] at h
    obtain ⟨t₁, h₁, hrest⟩ := Option.bind_eq_some_iff.mp h
    unfold measureEntry at h₁
    rw [List.filter_cons]
    split at h₁
    · rename_i hlong
      obtain rfl := Option.some.inj h₁
      rw [if_neg (by simpa using mt (short_iff).mp (not_not.mpr hlong))]
      exact ih ht hrest
    · rename_i hlong
      split at h₁
      · cases h₁
      · rename_i hcount
        split at h₁
        · cases h₁
        · obtain rfl := Option.some.inj h₁
          obtain ⟨hc, hb, hle⟩ := ih (by dsimp only; omega) hrest
          rw [if_pos (by simpa using (short_iff).mpr hlong), List.length_cons, List.map_cons,
            List.sum_cons]
          refine ⟨?_, ?_, hle⟩
          · rw [hc]
            dsimp only
            omega
          · rw [hb]
            unfold recordBytes
            dsimp only
            omega

/-- It does not fail while count and bytes fit. -/
theorem foldlM_measureEntry_isSome {rs : List (Bytes × Bytes)} {t : Nat × Nat}
    (hcount : t.1 + (rs.filter Short).length ≤ UINT32_MAX)
    (hbytes : t.2 + ((rs.filter Short).map recordBytes).sum ≤ UINT64_MAX) :
    ∃ t', rs.foldlM (fun t p => measureEntry p.2 t p.1) t = some t' := by
  induction rs generalizing t with
  | nil => exact ⟨t, rfl⟩
  | cons p rs ih =>
    rw [List.foldlM_cons]
    rw [List.filter_cons] at hcount hbytes
    unfold measureEntry
    by_cases hlong : UINT32_MAX < p.1.length ∨ UINT32_MAX < p.2.length
    · rw [if_pos hlong]
      rw [if_neg (by simpa using mt (short_iff).mp (not_not.mpr hlong))] at hcount hbytes
      exact ih hcount hbytes
    · rw [if_neg hlong]
      rw [if_pos (by simpa using (short_iff).mpr hlong), List.length_cons] at hcount
      rw [if_pos (by simpa using (short_iff).mpr hlong), List.map_cons, List.sum_cons] at hbytes
      unfold recordBytes at hbytes
      rw [if_neg (by omega), if_neg (by omega)]
      exact ih (by dsimp only; omega) (by dsimp only; unfold recordBytes; omega)

/-! ### What is written -/

/-- **A memory** with its pairs, which are C strings, and with marks of earlier scans only. -/
structure Sound (m : ToolMemory) (ps : List (Bytes × Bytes)) : Prop where
  holds : m.Holds ps
  cstrs : ∀ p ∈ ps, NulFree p.1 ∧ NulFree p.2
  seen : ∀ b blk, m.block b = some blk → blk.seen ≤ m.scanClock

theorem blockOk_of_eq {m' : ToolMemory} {b : Addr} {blk blk' : ToolMemoryBlock} {spare : Option Addr}
    (h : m.BlockOk spare b blk) (hindex : m'.byBlock = m.byBlock) (hentry : m'.entry = m.entry)
    (hd : blk'.dsml = blk.dsml) (hb : blk'.bytes = blk.bytes) (he : blk'.entries = blk.entries)
    (hr : blk'.refs = blk.refs) : m'.BlockOk spare b blk' where
  indexed := by rw [hindex, hd]; exact h.indexed
  dsml := hd ▸ h.dsml
  bytes := by rw [hb, hd]; exact h.bytes
  nodup := he ▸ h.nodup
  refs := by rw [hr, he]; exact h.refs
  used := hr ▸ h.used
  names := by rw [he, hentry]; exact h.names

/-- Marks do not change what a memory represents. -/
theorem Rep.marked (h : m.Rep none order) (scan clock : Nat) (done : List Bytes) :
    Rep { m.marked scan done with scanClock := clock } none order := by
  -- a block before and after
  have hget : ∀ b blk', (m.marked scan done).block b = some blk' → ∃ blk, m.block b = some blk ∧
      blk'.dsml = blk.dsml ∧ blk'.bytes = blk.bytes ∧ blk'.entries = blk.entries ∧
        blk'.refs = blk.refs := by
    intro b blk' hb
    unfold ToolMemory.marked at hb
    obtain ⟨blk, hblk, rfl⟩ := Option.map_eq_some_iff.mp hb
    refine ⟨blk, hblk, ?_⟩
    split <;> exact ⟨rfl, rfl, rfl, rfl⟩
  have hput : ∀ b blk, m.block b = some blk → ∃ blk', (m.marked scan done).block b = some blk' ∧
      blk'.dsml = blk.dsml ∧ blk'.entries = blk.entries := by
    intro b blk hb
    unfold ToolMemory.marked
    dsimp only
    rw [hb, Option.map_some]
    refine ⟨_, rfl, ?_⟩
    split <;> exact ⟨rfl, rfl⟩
  refine ⟨h.spells, h.live, h.listed, fun a e he => ?_, fun b blk' hb => ?_, h.byId, fun d b hd => ?_,
    fun a ha => ⟨(h.fresh a ha).1, ?_⟩, h.count, h.bytes⟩
  · have hok := h.entryOk a e he
    obtain ⟨blk, hblk, hmem⟩ := hok.block
    obtain ⟨blk', hblk', -, hentries⟩ := hput e.block blk hblk
    exact ⟨hok.indexed, hok.id, hok.bytes, blk', hblk', hentries ▸ hmem⟩
  · obtain ⟨blk, hblk, hd, hbytes, hentries, hrefs⟩ := hget b blk' hb
    exact blockOk_of_eq (h.blockOk b blk hblk) rfl rfl hd hbytes hentries hrefs
  · obtain ⟨blk, hblk, hdsml⟩ := h.byBlock d b hd
    obtain ⟨blk', hblk', hd', -⟩ := hput b blk hblk
    exact ⟨blk', hblk', hd'.trans hdsml⟩
  · show (m.block a).map _ = none
    rw [(h.fresh a ha).2, Option.map_none]

/-- **A scan** leaves the memory sound. -/
theorem Sound.marked (h : m.Sound ps) {clock : Nat} (hclock : m.scanClock ≤ clock) (done : List Bytes) :
    Sound { m.marked clock done with scanClock := clock } ps where
  holds := by
    obtain ⟨order, hrep, rfl⟩ := h.holds
    refine ⟨order, hrep.marked clock clock done, List.map_congr_left fun a _ => ?_⟩
    exact pairAt_congr rfl fun _ => marked_dsml _
  cstrs := h.cstrs
  seen := by
    intro b blk' hb
    have hb' : (m.block b).map _ = some blk' := hb
    obtain ⟨blk, hblk, rfl⟩ := Option.map_eq_some_iff.mp hb'
    have hle := h.seen b blk hblk
    dsimp only
    split
    · exact Nat.le_refl _
    · omega

/-- The entries that a search for a text goes through. -/
def textRecords (m : ToolMemory) (text : Bytes) : List (Bytes × Bytes) := m.newRecords [] (toolBlocks text)

theorem textRecords_marked (m : ToolMemory) (scan clock : Nat) (done : List Bytes) (text : Bytes) :
    ({ m.marked scan done with scanClock := clock } : ToolMemory).textRecords text = m.textRecords text := by
  refine newRecords_congr (fun d => ?_) [] (toolBlocks text)
  unfold blockOf
  show (((m.findBlock d).bind (m.marked scan done).block).map
    fun blk => (m.idsOf blk, blk.dsml)) = _
  cases m.findBlock d with
  | none => rfl
  | some b =>
    rw [Option.bind_some, Option.bind_some]
    unfold ToolMemory.marked
    dsimp only
    rw [Option.map_map]
    congr 1
    funext blk
    show (m.idsOf (if _ then _ else _ : ToolMemoryBlock), (if _ then _ else _ : ToolMemoryBlock).dsml) = _
    split <;> rfl

theorem scanTick_eq (h : m.scanClock + 1 < 0x10000000000000000) : m.scanTick = m.scanClock + 1 :=
  Nat.mod_eq_of_lt h

/-- **A measuring pass.** -/
theorem Sound.measure_eq (h : m.Sound ps) (hclock : m.scanClock + 1 < 0x10000000000000000)
    (text : Bytes) :
    ∃ done, m.measure text =
      ({ m.marked (m.scanClock + 1) done with scanClock := m.scanClock + 1 },
        ((m.textRecords text).foldlM (fun t p => measureEntry p.2 t p.1) (0, KV_TOOL_MAP_HEADER)).map
          fun t => (t.1, if t.1 = 0 then 0 else t.2)) := by
  obtain ⟨order, hrep, -⟩ := h.holds
  have hrep' : Rep { m with scanClock := m.scanClock + 1 } none order := by
    have hmarked := hrep.marked 0 (m.scanClock + 1) []
    rwa [marked_nil] at hmarked
  have hseen : ∀ b blk, m.block b = some blk → blk.seen ≠ m.scanClock + 1 := fun b blk hb => by
    have hle := h.seen b blk hb
    omega
  obtain ⟨done, hloop⟩ := hrep'.measureLoop_marked hseen [] (toolBlocks text) (0, KV_TOOL_MAP_HEADER)
  rw [marked_nil] at hloop
  refine ⟨done, ?_⟩
  have hrecords : newRecords { m with scanClock := m.scanClock + 1 } [] (toolBlocks text) =
      m.textRecords text :=
    @newRecords_congr m { m with scanClock := m.scanClock + 1 } (fun _ => rfl) [] (toolBlocks text)
  unfold measure
  rw [scanTick_eq hclock, hloop, hrecords]
  cases (m.textRecords text).foldlM (fun t p => measureEntry p.2 t p.1) (0, KV_TOOL_MAP_HEADER) <;> rfl

/-- The records that are written for a text. -/
def written (m : ToolMemory) (text : Bytes) : List (Bytes × Bytes) := (m.textRecords text).filter Short

/-- **What is written**, if measuring does not fail: the map of the records, and the measured size is
    its size. -/
theorem Sound.write_spec (h : m.Sound ps) (hclock : m.scanClock + 2 < 0x10000000000000000) {text : Bytes}
    (htext : cstr text ≠ []) :
    ((m.textRecords text).foldlM (fun t p => measureEntry p.2 t p.1) (0, KV_TOOL_MAP_HEADER) = none ∧
      (kvToolMapWrite false m text).2.1 = false) ∨
    ((m.written text).length ≤ UINT32_MAX ∧
      (kvToolMapWrite false m text).2 =
        (true, encodeMap (m.written text), (encodeMap (m.written text)).length) ∧
      (kvToolMapSerializedSize false m text).2 = (true, (encodeMap (m.written text)).length)) := by
  obtain ⟨done, hmeasure⟩ := h.measure_eq (by omega) text
  unfold kvToolMapWrite kvToolMapSerializedSize
  rw [if_neg (by simp [htext]), if_neg (by simp [htext]), hmeasure]
  cases hfold : (m.textRecords text).foldlM (fun t p => measureEntry p.2 t p.1)
      (0, KV_TOOL_MAP_HEADER) with
  | none => exact Or.inl ⟨rfl, rfl⟩
  | some t =>
    right
    obtain ⟨hcount, hbytes, hle⟩ := foldlM_measureEntry (Nat.zero_le _) hfold
    rw [Nat.zero_add] at hcount
    have hlen : t.1 = (m.written text).length := hcount
    refine ⟨hlen ▸ hle, ?_⟩
    rw [Option.map_some]
    dsimp only
    by_cases hzero : t.1 = 0
    · have hnil : m.written text = [] := List.length_eq_zero_iff.mp (hlen.symm.trans hzero)
      rw [if_pos hzero, if_pos hzero, hnil]
      exact ⟨rfl, rfl⟩
    · have hne : m.written text ≠ [] := fun hnil => hzero (by rw [hlen, hnil]; rfl)
      have hsize : (encodeMap (m.written text)).length = t.2 := by
        unfold encodeMap
        rw [if_neg hne, List.length_append, List.length_append, leBytes_length,
          flatMap_encodeEntry_length, hbytes]
        rfl
      rw [if_neg hzero, if_neg hzero, hsize]
      refine ⟨?_, rfl⟩
      -- the writing pass, on the memory that measuring has left
      have hsound := h.marked (Nat.le_succ m.scanClock) done
      obtain ⟨order, hrep, -⟩ := hsound.holds
      have hrep' := hrep.marked 0 (m.scanClock + 2) []
      rw [marked_nil] at hrep'
      have hseen : ∀ b blk, ({ m.marked (m.scanClock + 1) done with
          scanClock := m.scanClock + 2 } : ToolMemory).block b = some blk →
            blk.seen ≠ m.scanClock + 2 := fun b blk hb => by
        have hle' : blk.seen ≤ m.scanClock + 1 := hsound.seen b blk hb
        omega
      obtain ⟨done', hloop⟩ := hrep'.writeLoop_marked hseen [] (toolBlocks text)
      rw [marked_nil] at hloop
      have htick : ({ m.marked (m.scanClock + 1) done with
          scanClock := m.scanClock + 1 } : ToolMemory).scanTick = m.scanClock + 2 :=
        scanTick_eq (by dsimp only; omega)
      have hrecords : ({ m.marked (m.scanClock + 1) done with
          scanClock := m.scanClock + 2 } : ToolMemory).newRecords [] (toolBlocks text) =
            m.textRecords text := textRecords_marked m _ _ _ _
      rw [htick, hloop, hrecords]
      dsimp only
      unfold encodeMap
      rw [if_neg hne, hlen]
      rfl

/-! ### What is loaded -/

/-- An entry that the loader takes. -/
def Loadable (p : Bytes × Bytes) : Prop :=
  p.1.length ≤ 256 ∧ p.2.length ≤ DS4_TOOL_MEMORY_MAX_BYTES

theorem Loadable.short {p : Bytes × Bytes} (h : Loadable p) : Short p := by
  obtain ⟨hid, hd⟩ := h
  unfold DS4_TOOL_MEMORY_MAX_BYTES at hd
  unfold Short UINT32_MAX
  omega

/-- **One entry** is put, or ends the loading. -/
theorem loadLoop_cons {p : Bytes × Bytes} (hp : p.1 ≠ [] ∧ p.2 ≠ []) (hc : NulFree p.1 ∧ NulFree p.2)
    (hshort : Short p) (n : Nat) (m : ToolMemory) (loaded : Nat) (rest : Bytes) :
    (Loadable p → loadLoop none (n + 1) m loaded (encodeEntry p ++ rest) =
      (m.put p.1 p.2 .disk).bind fun m => loadLoop none n m (loaded + 1) rest) ∧
    (¬ Loadable p → loadLoop none (n + 1) m loaded (encodeEntry p ++ rest) = some (m, loaded)) := by
  obtain ⟨hs₁, hs₂⟩ := hshort
  unfold UINT32_MAX at hs₁ hs₂
  have henc : encodeEntry p ++ rest =
      leBytes 4 p.1.length ++ (leBytes 4 p.2.length ++ (p.1 ++ (p.2 ++ rest))) := by
    unfold encodeEntry
    simp only [List.append_assoc]
  have h4 : ∀ v, (leBytes 4 v).length = 4 := leBytes_length 4
  have hdrop4 : (encodeEntry p ++ rest).drop 4 = leBytes 4 p.2.length ++ (p.1 ++ (p.2 ++ rest)) := by
    rw [henc, List.drop_left' (h4 _)]
  have hdrop8 : (encodeEntry p ++ rest).drop 8 = p.1 ++ (p.2 ++ rest) := by
    rw [show (8 : Nat) = 4 + 4 from rfl, ← List.drop_drop, hdrop4, List.drop_left' (h4 _)]
  have hid : leValue ((encodeEntry p ++ rest).take 4) = p.1.length := by
    rw [henc, List.take_left' (h4 _), leValue_leBytes_of_lt (by omega)]
  have hd : leValue (((encodeEntry p ++ rest).drop 4).take 4) = p.2.length := by
    rw [hdrop4, List.take_left' (h4 _), leValue_leBytes_of_lt (by omega)]
  have hdropId : (encodeEntry p ++ rest).drop (8 + p.1.length) = p.2 ++ rest := by
    rw [← List.drop_drop, hdrop8, List.drop_left]
  have hdropAll : (encodeEntry p ++ rest).drop (8 + p.1.length + p.2.length) = rest := by
    rw [← List.drop_drop, hdropId, List.drop_left]
  have hlen : (encodeEntry p ++ rest).length = 8 + p.1.length + p.2.length + rest.length := by
    rw [List.length_append, encodeEntry_length]
    rfl
  have hpos₁ := List.length_pos_of_ne_nil hp.1
  have hpos₂ := List.length_pos_of_ne_nil hp.2
  constructor
  · rintro ⟨h₁, h₂⟩
    conv_lhs => unfold loadLoop
    dsimp only
    rw [if_neg (by omega), hid, hd, if_neg (by omega), if_neg (by omega), hdrop8, hdropId, hdropAll,
      List.take_left, List.take_left, hc.1.cstr, hc.2.cstr]
    exact if_pos rfl
  · intro hnot
    unfold Loadable at hnot
    conv_lhs => unfold loadLoop
    dsimp only
    rw [if_neg (by omega), hid, hd]
    exact if_pos (by omega)

/-- **What a load adds** is in the map, and could be taken. -/
theorem load_sub {rs : List (Bytes × Bytes)} (hrs : ∀ p ∈ rs, p.1 ≠ [] ∧ p.2 ≠ [])
    (hc : ∀ p ∈ rs, NulFree p.1 ∧ NulFree p.2) (hshort : ∀ p ∈ rs, Short p) (h : m.Holds qs)
    (hlimit : m.overLimit = false) (loaded : Nat) :
    ∃ m' n qs', loadLoop none rs.length m loaded (rs.flatMap encodeEntry) = some (m', n) ∧
      m'.Holds qs' ∧ m'.overLimit = false ∧ m'.maxEntries = m.maxEntries ∧
      m'.maxBytes = m.maxBytes ∧ ∀ p ∈ qs', p ∈ qs ∨ (p ∈ rs ∧ Loadable p) := by
  induction rs generalizing m qs loaded with
  | nil => exact ⟨m, loaded, qs, rfl, h, hlimit, rfl, rfl, fun p hp => Or.inl hp⟩
  | cons p rs ih =>
    have hp := hrs p List.mem_cons_self
    obtain ⟨htake, hstop⟩ := loadLoop_cons hp (hc p List.mem_cons_self) (hshort p List.mem_cons_self)
      rs.length m loaded (rs.flatMap encodeEntry)
    rw [List.length_cons, List.flatMap_cons]
    by_cases hload : Loadable p
    · rw [htake hload]
      obtain ⟨m₁, hput, hholds, he, hb⟩ := h.put hp.1 hp.2 .disk
      obtain ⟨k, hpruned, hlimit', he', hb'⟩ := hholds.prune
      obtain ⟨m', n, qs', hrest, hholds', hlimit'', he'', hb'', hsub⟩ := ih
        (fun q hq => hrs q (List.mem_cons_of_mem _ hq)) (fun q hq => hc q (List.mem_cons_of_mem _ hq))
        (fun q hq => hshort q (List.mem_cons_of_mem _ hq)) hpruned hlimit' (loaded + 1)
      rw [hput]
      refine ⟨m', n, qs', hrest, hholds', hlimit'', (he''.trans he').trans he, (hb''.trans hb').trans hb,
        fun q hq => ?_⟩
      rcases hsub q hq with hold | ⟨hmem, hload'⟩
      · rcases List.mem_cons.mp (List.mem_of_mem_take hold) with rfl | hother
        · exact Or.inr ⟨List.mem_cons_self, hload⟩
        · exact Or.inl (List.mem_of_mem_filter hother)
      · exact Or.inr ⟨List.mem_cons_of_mem _ hmem, hload'⟩
    · rw [hstop hload]
      exact ⟨m, loaded, qs, rfl, h, hlimit, rfl, rfl, fun q hq => Or.inl hq⟩

/-- **A load that fits** adds every pair. -/
theorem load_all {rs : List (Bytes × Bytes)} (hrs : ∀ p ∈ rs, p.1 ≠ [] ∧ p.2 ≠ [])
    (hc : ∀ p ∈ rs, NulFree p.1 ∧ NulFree p.2) (hload : ∀ p ∈ rs, Loadable p)
    (hnodup : ((rs.reverse ++ qs).map Prod.fst).Nodup) (h : m.Holds qs)
    (hentries : ((rs.reverse ++ qs).length : Int) ≤ m.toolMemoryMaxEntries)
    (hbytes : pairBytes (rs.reverse ++ qs) ≤ m.toolMemoryMaxBytes) (loaded : Nat) :
    ∃ m', loadLoop none rs.length m loaded (rs.flatMap encodeEntry) = some (m', loaded + rs.length) ∧
      m'.Holds (rs.reverse ++ qs) := by
  induction rs generalizing m qs loaded with
  | nil => exact ⟨m, rfl, h⟩
  | cons p rs ih =>
    have hp := hrs p List.mem_cons_self
    have hsplit : (p :: rs).reverse ++ qs = rs.reverse ++ p :: qs := by
      rw [List.reverse_cons, List.append_assoc]
      rfl
    rw [hsplit] at hnodup hentries hbytes ⊢
    obtain ⟨htake, -⟩ := loadLoop_cons hp (hc p List.mem_cons_self) (hload p List.mem_cons_self).short
      rs.length m loaded (rs.flatMap encodeEntry)
    rw [List.length_cons, List.flatMap_cons, htake (hload p List.mem_cons_self)]
    obtain ⟨m₁, hput, hholds, he, hb⟩ := h.put hp.1 hp.2 .disk
    -- the id is new, and nothing is pruned
    have hothers : others p.1 qs = qs := by
      rw [List.map_append, List.nodup_append, List.map_cons, List.nodup_cons] at hnodup
      refine List.filter_eq_self.mpr fun q hq => decide_eq_true fun heq => ?_
      exact hnodup.2.1.1 (heq ▸ List.mem_map_of_mem hq)
    have hholds' : m₁.Holds (p :: qs) := by
      rw [hothers] at hholds
      exact hholds
    have hmax : m₁.toolMemoryMaxEntries = m.toolMemoryMaxEntries ∧
        m₁.toolMemoryMaxBytes = m.toolMemoryMaxBytes := by
      unfold toolMemoryMaxEntries toolMemoryMaxBytes
      rw [he, hb]
      exact ⟨rfl, rfl⟩
    have hfits : m₁.overLimit = false := by
      rw [hholds'.overLimit_iff, hmax.1, hmax.2]
      have hmono := pairBytes_append rs.reverse (p :: qs)
      rw [List.length_append] at hentries
      exact ⟨by omega, by omega⟩
    rw [prune_eq_self hfits] at hput
    obtain ⟨m', hrest, hall⟩ := ih (fun q hq => hrs q (List.mem_cons_of_mem _ hq))
      (fun q hq => hc q (List.mem_cons_of_mem _ hq)) (fun q hq => hload q (List.mem_cons_of_mem _ hq))
      hnodup hholds' (by rw [hmax.1]; exact hentries) (by rw [hmax.2]; exact hbytes) (loaded + 1)
    rw [hput]
    refine ⟨m', ?_, hall⟩
    show loadLoop none rs.length m₁ (loaded + 1) (rs.flatMap encodeEntry) = _
    rw [hrest, Nat.add_right_comm]
    rfl

/-- **A map** that is loaded. -/
theorem load_encodeMap (m : ToolMemory) {rs : List (Bytes × Bytes)} (hlen : rs.length < 256 ^ 4) :
    kvToolMapLoadFromPos false m none (encodeMap rs) =
      if rs = [] ∨ m.toolMemoryMaxEntries * 4 < rs.length then some (m, 0)
      else loadLoop none rs.length m 0 (rs.flatMap encodeEntry) := by
  by_cases hnil : rs = []
  · rw [if_pos (Or.inl hnil), hnil]
    rfl
  · have henc : encodeMap rs = toolMapMagic ++ (leBytes 4 rs.length ++ rs.flatMap encodeEntry) := by
      unfold encodeMap
      rw [if_neg hnil, List.append_assoc]
    have hmagic : toolMapMagic.length = 4 := rfl
    have hcount : (leBytes 4 rs.length).length = 4 := leBytes_length 4 _
    have hdrop4 : (encodeMap rs).drop 4 = leBytes 4 rs.length ++ rs.flatMap encodeEntry := by
      rw [henc, List.drop_left' hmagic]
    have hdrop8 : (encodeMap rs).drop KV_TOOL_MAP_HEADER = rs.flatMap encodeEntry := by
      unfold KV_TOOL_MAP_HEADER
      rw [show (8 : Nat) = 4 + 4 from rfl, ← List.drop_drop, hdrop4, List.drop_left' hcount]
    have hlong : ¬ (encodeMap rs).length < KV_TOOL_MAP_HEADER := by
      rw [henc, List.length_append, List.length_append, hmagic, hcount]
      unfold KV_TOOL_MAP_HEADER
      omega
    have htake : (encodeMap rs).take 4 = toolMapMagic := by rw [henc, List.take_left' hmagic]
    unfold kvToolMapLoadFromPos
    rw [if_neg (by decide), if_neg hlong, if_neg (not_not.mpr htake), hdrop4, hdrop8,
      List.take_left' hcount, leValue_leBytes_of_lt hlen]
    dsimp only
    by_cases hmax : m.toolMemoryMaxEntries * 4 < rs.length
    · rw [if_pos hmax, if_pos (Or.inr hmax)]
    · rw [if_neg hmax, if_neg (not_or.mpr ⟨hnil, hmax⟩)]

/-! ### The round trip -/

/-- The pairs whose text occurs in a text. -/
def occurring (ps : List (Bytes × Bytes)) (text : Bytes) : List (Bytes × Bytes) :=
  ps.filter fun p => decide (p.2 <:+: cstr text)

/-- **The round trip** of a memory over the map for a text: what is written is what was measured, its
    header counts its entries, and an empty memory loads the pairs of the text from it. -/
structure RoundTrips (m : ToolMemory) (ps : List (Bytes × Bytes)) (text : Bytes) (maxEntries : Int)
    (maxBytes : Nat) : Prop where
  ok : (kvToolMapWrite false m text).2.1 = true
  reported : (kvToolMapWrite false m text).2.2.2 = (kvToolMapWrite false m text).2.2.1.length
  measured : (kvToolMapSerializedSize false m text).2 =
    (true, (kvToolMapWrite false m text).2.2.1.length)
  counted : ∃ rs : List (Bytes × Bytes), rs.length < 256 ^ 4 ∧
    (kvToolMapWrite false m text).2.2.1 = encodeMap rs
  loaded : ∃ m' n qs, kvToolMapLoadFromPos false (empty maxEntries maxBytes) none
      (kvToolMapWrite false m text).2.2.1 = some (m', n) ∧ m'.Holds qs ∧
    ∀ p, p ∈ qs ↔ p ∈ occurring ps text

/-- When a map brings the pairs back: the search finds every remembered block of the text, the loader
    takes every id and every text, and they are within the limits of the memory. -/
structure Restorable (ps : List (Bytes × Bytes)) (text : Bytes) (maxEntries : Int) (maxBytes : Nat) :
    Prop where
  found : ∀ p ∈ occurring ps text, p.2 ∈ toolBlocks text
  loadable : ∀ p ∈ occurring ps text, Loadable p
  entries : ((occurring ps text).length : Int) ≤ (empty maxEntries maxBytes).toolMemoryMaxEntries
  bytes : pairBytes (occurring ps text) ≤ (empty maxEntries maxBytes).toolMemoryMaxBytes

variable {text : Bytes} {maxEntries : Int} {maxBytes : Nat}

theorem holds_empty (maxEntries : Int) (maxBytes : Nat) : (empty maxEntries maxBytes).Holds [] :=
  ⟨[], rep_empty maxEntries maxBytes, rfl⟩

theorem mem_occurring {p : Bytes × Bytes} : p ∈ occurring ps text ↔ p ∈ ps ∧ p.2 <:+: cstr text := by
  unfold occurring
  rw [List.mem_filter, decide_eq_true_eq]

/-- What is written are remembered pairs whose text occurs. -/
theorem Holds.mem_written (h : m.Holds ps) {p : Bytes × Bytes} :
    p ∈ m.written text ↔ p.2 ∈ toolBlocks text ∧ p ∈ ps ∧ Short p := by
  obtain ⟨order, hrep, rfl⟩ := h
  unfold written textRecords
  rw [List.mem_filter, hrep.mem_newRecords, decide_eq_true_eq]
  constructor
  · rintro ⟨⟨h₁, -, h₂⟩, h₃⟩
    exact ⟨h₁, h₂, h₃⟩
  · rintro ⟨h₁, h₂, h₃⟩
    exact ⟨⟨h₁, List.not_mem_nil, h₂⟩, h₃⟩

theorem Holds.occurring_of_written (h : m.Holds ps) {p : Bytes × Bytes} (hp : p ∈ m.written text) :
    p ∈ occurring ps text :=
  (mem_occurring).mpr ⟨(h.mem_written.mp hp).2.1, infix_of_mem_toolBlocks (h.mem_written.mp hp).1⟩

/-- Nothing occurs in an empty text. -/
theorem Holds.occurring_nil (h : m.Holds ps) (htext : cstr text = []) : occurring ps text = [] := by
  refine List.eq_nil_iff_forall_not_mem.mpr fun p hp => ?_
  obtain ⟨hmem, hinfix⟩ := (mem_occurring).mp hp
  rw [htext] at hinfix
  exact (h.ne_nil hmem).2 (List.infix_nil.mp hinfix)

/-- **If** a map brings the pairs back, it could. -/
theorem Sound.restorable (h : m.Sound ps) (hclock : m.scanClock + 2 < 0x10000000000000000)
    (hr : RoundTrips m ps text maxEntries maxBytes) : Restorable ps text maxEntries maxBytes := by
  have hstart := (holds_empty maxEntries maxBytes).overLimit_iff.mp
    (rep_empty maxEntries maxBytes).not_overLimit_nil
  by_cases htext : cstr text = []
  · have hnil := h.holds.occurring_nil htext
    constructor <;> rw [hnil]
    · exact fun p hp => absurd hp List.not_mem_nil
    · exact fun p hp => absurd hp List.not_mem_nil
    · exact hstart.1
    · exact hstart.2
  · obtain ⟨m', n, qs, hload, hholds, hqs⟩ := hr.loaded
    rcases h.write_spec hclock htext with ⟨-, hfail⟩ | ⟨hlen, hwrite, -⟩
    · rw [hr.ok] at hfail
      cases hfail
    · have hwritten : ∀ p ∈ m.written text, p ∈ ps ∧ Short p := fun p hp =>
        (h.holds.mem_written.mp hp).2
      rw [hwrite, load_encodeMap _ (by unfold UINT32_MAX at hlen; omega)] at hload
      -- what was loaded, whether the count was accepted or not
      have hsub : m'.overLimit = false ∧ m'.maxEntries = maxEntries ∧ m'.maxBytes = maxBytes ∧
          ∀ p ∈ qs, p ∈ m.written text ∧ Loadable p := by
        split at hload
        · obtain ⟨rfl, -⟩ := Prod.mk.inj (Option.some.inj hload)
          have hperm := hholds.perm (holds_empty maxEntries maxBytes)
          rw [List.perm_nil] at hperm
          exact ⟨(rep_empty maxEntries maxBytes).not_overLimit_nil, rfl, rfl,
            fun p hp => absurd (hperm ▸ hp) List.not_mem_nil⟩
        · obtain ⟨m'', n', qs', hload', hholds', hlimit, he, hb, hmem⟩ := load_sub
            (fun p hp => h.holds.ne_nil (hwritten p hp).1) (fun p hp => h.cstrs p (hwritten p hp).1)
            (fun p hp => (hwritten p hp).2) (holds_empty maxEntries maxBytes)
            (rep_empty maxEntries maxBytes).not_overLimit_nil 0
          rw [hload'] at hload
          obtain ⟨rfl, -⟩ := Prod.mk.inj (Option.some.inj hload)
          refine ⟨hlimit, he, hb, fun p hp => ?_⟩
          exact (hmem p ((hholds.perm hholds').mem_iff.mp hp)).resolve_left List.not_mem_nil
      obtain ⟨hlimit, he, hb, hmem⟩ := hsub
      -- the pairs of the text are the ones that were loaded
      have hperm : qs.Perm (occurring ps text) :=
        (List.perm_ext_iff_of_nodup (List.Nodup.of_map _ hholds.ids_nodup)
          ((List.Nodup.of_map _ h.holds.ids_nodup).filter _)).mpr hqs
      have hfits := (hholds.overLimit_iff).mp hlimit
      unfold toolMemoryMaxEntries toolMemoryMaxBytes at hfits
      rw [he, hb, hperm.length_eq, pairBytes_perm hperm] at hfits
      exact ⟨fun p hp => (h.holds.mem_written.mp (hmem p ((hqs p).mpr hp)).1).1,
        fun p hp => (hmem p ((hqs p).mpr hp)).2, hfits.1, hfits.2⟩

/-- **Where** a map could bring the pairs back, it does. -/
theorem Sound.roundTrips (h : m.Sound ps) (hclock : m.scanClock + 2 < 0x10000000000000000)
    (hmax : maxEntries < 0x80000000) (hr : Restorable ps text maxEntries maxBytes) :
    RoundTrips m ps text maxEntries maxBytes := by
  by_cases htext : cstr text = []
  · have hnil := h.holds.occurring_nil htext
    have hwrite : kvToolMapWrite false m text = (m, true, [], 0) := if_pos (Or.inr htext)
    have hsize : kvToolMapSerializedSize false m text = (m, true, 0) := if_pos (Or.inr htext)
    constructor <;> rw [hwrite]
    · rfl
    · rw [hsize]
      rfl
    · exact ⟨[], by decide, rfl⟩
    · exact ⟨_, 0, [], rfl, holds_empty maxEntries maxBytes, fun p => by rw [hnil]⟩
  · have hshort : m.written text = m.textRecords text := by
      refine List.filter_eq_self.mpr fun p hp => decide_eq_true ?_
      obtain ⟨order, hrep, hps⟩ := h.holds
      obtain ⟨hblock, -, hmem⟩ := (hrep.mem_newRecords).mp hp
      exact (hr.loadable p ((mem_occurring).mpr ⟨hps ▸ hmem, infix_of_mem_toolBlocks hblock⟩)).short
    have hmem : ∀ p, p ∈ m.written text ↔ p ∈ occurring ps text := fun p =>
      ⟨h.holds.occurring_of_written, fun hp => (h.holds.mem_written).mpr
        ⟨hr.found p hp, ((mem_occurring).mp hp).1, (hr.loadable p hp).short⟩⟩
    have hnodup : (m.written text).Nodup := by
      obtain ⟨order, hrep, -⟩ := h.holds
      exact hrep.newRecords_nodup.filter _
    have hperm : (m.written text).Perm (occurring ps text) :=
      (List.perm_ext_iff_of_nodup hnodup ((List.Nodup.of_map _ h.holds.ids_nodup).filter _)).mpr hmem
    have hcount : (m.written text).length < 0x80000000 := by
      have hentries := hr.entries
      rw [← hperm.length_eq] at hentries
      unfold toolMemoryMaxEntries empty DS4_TOOL_MEMORY_DEFAULT_MAX_IDS at hentries
      dsimp only at hentries
      split at hentries <;> omega
    -- measuring does not fail
    have hbytes : ((m.written text).map recordBytes).sum ≤ (m.written text).length * 0x40000000 := by
      have hle := List.sum_le_card_nsmul ((m.written text).map recordBytes) 0x40000000 fun x hx => by
        obtain ⟨p, hp, rfl⟩ := List.mem_map.mp hx
        obtain ⟨h₁, h₂⟩ := hr.loadable p ((hmem p).mp hp)
        unfold DS4_TOOL_MEMORY_MAX_BYTES at h₂
        unfold recordBytes
        omega
      rw [List.length_map] at hle
      exact hle
    have hfold := @foldlM_measureEntry_isSome (m.textRecords text) (0, KV_TOOL_MAP_HEADER)
      (by
        show 0 + (m.written text).length ≤ UINT32_MAX
        unfold UINT32_MAX
        omega)
      (by
        show 8 + ((m.written text).map recordBytes).sum ≤ UINT64_MAX
        unfold UINT64_MAX
        omega)
    rcases h.write_spec hclock htext with ⟨hnone, -⟩ | ⟨hlen, hwrite, hsize⟩
    · obtain ⟨t, ht⟩ := hfold
      rw [hnone] at ht
      cases ht
    · -- everything that was written is loaded
      have hids : (((m.written text).reverse ++ []).map Prod.fst).Nodup := by
        rw [List.append_nil, List.map_reverse, List.nodup_reverse, (hperm.map Prod.fst).nodup_iff]
        exact h.holds.ids_nodup.sublist (List.filter_sublist.map Prod.fst)
      have hrev : ((m.written text).reverse ++ []).Perm (occurring ps text) := by
        rw [List.append_nil]
        exact (List.reverse_perm _).trans hperm
      obtain ⟨m', hload, hholds⟩ := load_all
        (fun p hp => h.holds.ne_nil (h.holds.mem_written.mp hp).2.1)
        (fun p hp => h.cstrs p (h.holds.mem_written.mp hp).2.1)
        (fun p hp => hr.loadable p ((hmem p).mp hp)) hids (holds_empty maxEntries maxBytes)
        (by rw [hrev.length_eq]; exact hr.entries) (by rw [pairBytes_perm hrev]; exact hr.bytes) 0
      have hlt : (m.written text).length < 256 ^ 4 := by omega
      refine ⟨by rw [hwrite], by rw [hwrite], by rw [hwrite, hsize], ⟨_, hlt, by rw [hwrite]⟩, ?_⟩
      rw [hwrite, load_encodeMap _ hlt]
      split
      · rename_i hskip
        refine ⟨_, 0, [], rfl, holds_empty maxEntries maxBytes, fun p => ?_⟩
        rcases hskip with hnil | hmany
        · rw [← hmem, hnil]
        · have hentries := hr.entries
          rw [← hperm.length_eq] at hentries
          omega
      · refine ⟨m', _, _, hload, hholds, fun p => hrev.mem_iff⟩

/-! ### What keeps a memory sound -/

/-- The second memory has the scan clock of the first, and no later marks. -/
structure Unscanned (m m' : ToolMemory) : Prop where
  clock : m'.scanClock = m.scanClock
  seen : ∀ c, (∀ b blk, m.block b = some blk → blk.seen ≤ c) →
    ∀ b blk, m'.block b = some blk → blk.seen ≤ c

theorem Unscanned.refl (m : ToolMemory) : Unscanned m m := ⟨rfl, fun _ h => h⟩

theorem Unscanned.trans {m₁ m₂ m₃ : ToolMemory} (h : Unscanned m₁ m₂) (h' : Unscanned m₂ m₃) :
    Unscanned m₁ m₃ :=
  ⟨h'.clock.trans h.clock, fun c hc => h'.seen c (h.seen c hc)⟩

/-- One block is replaced, by one with the same mark or by none. -/
theorem unscanned_update {m' : ToolMemory} {b : Addr} {new : Option ToolMemoryBlock}
    (hclock : m'.scanClock = m.scanClock) (hblock : m'.block = Function.update m.block b new)
    (hnew : ∀ blk', new = some blk' → blk'.seen = 0 ∨ ∃ blk, m.block b = some blk ∧
      blk'.seen = blk.seen) : Unscanned m m' := by
  refine ⟨hclock, fun c hc b' blk' hb' => ?_⟩
  rw [hblock] at hb'
  by_cases hbb : b' = b
  · rw [hbb, Function.update_self] at hb'
    rcases hnew blk' hb' with hzero | ⟨blk, hblk, hseen⟩
    · rw [hzero]
      exact Nat.zero_le c
    · rw [hseen]
      exact hc b blk hblk
  · rw [Function.update_of_ne hbb] at hb'
    exact hc b' blk' hb'

theorem unscanned_touch (m : ToolMemory) (a : Addr) : Unscanned m (m.touch a) := by
  refine ⟨?_, fun c hc => by rw [touch_block]; exact hc⟩
  unfold ToolMemory.touch
  split
  · rfl
  · dsimp only
    split <;> rfl

theorem unscanned_markRam (m : ToolMemory) (a : Addr) (source : ToolMemorySource) :
    Unscanned m (m.markRam a source) := by
  unfold markRam
  split <;> exact ⟨rfl, fun _ h => h⟩

theorem unscanned_releaseBlock (m : ToolMemory) (b : Addr) : Unscanned m (m.releaseBlock b) := by
  unfold releaseBlock
  split
  · exact Unscanned.refl m
  · rename_i blk hb
    split
    · exact unscanned_update rfl rfl fun blk' h => by
        cases h
        exact Or.inr ⟨blk, hb, rfl⟩
    · exact unscanned_update rfl rfl fun blk' h => by cases h

theorem unscanned_unlinkFromBlock (m : ToolMemory) (b a : Addr) :
    Unscanned m (m.unlinkFromBlock b a) := by
  unfold unlinkFromBlock
  split
  · exact Unscanned.refl m
  · rename_i blk hb
    exact unscanned_update rfl rfl fun blk' h => by
      cases h
      exact Or.inr ⟨blk, hb, rfl⟩

theorem unscanned_removeEntry (m : ToolMemory) (a : Addr) : Unscanned m (m.removeEntry a) := by
  unfold removeEntry
  split
  · exact Unscanned.refl m
  · rename_i e he
    dsimp only
    have h₁ : Unscanned m { m with byId := m.byId.erase e.id, links := m.links.unlink a } :=
      ⟨rfl, fun _ h => h⟩
    have h₂ := h₁.trans (unscanned_unlinkFromBlock _ e.block a)
    refine ⟨?_, fun c hc => ?_⟩
    · exact (unscanned_releaseBlock _ e.block).clock.trans h₂.clock
    · exact (unscanned_releaseBlock _ e.block).seen c (h₂.seen c hc)

theorem unscanned_prune (m : ToolMemory) : Unscanned m m.prune := by
  unfold prune
  generalize m.entries = fuel
  induction fuel generalizing m with
  | zero => exact Unscanned.refl m
  | succ fuel ih =>
    unfold pruneLoop
    split
    · exact Unscanned.refl m
    · split
      · exact (unscanned_removeEntry m _).trans (ih _)
      · exact Unscanned.refl m

theorem unscanned_putNew {m' : ToolMemory} {id dsml : Bytes} {source : ToolMemorySource}
    (h : m.putNew id dsml source = some m') : Unscanned m m' := by
  unfold putNew at h
  obtain ⟨⟨b, m₁⟩, hget, hmap⟩ := Option.bind_eq_some_iff.mp h
  obtain ⟨m₂, hadd, rfl⟩ := Option.map_eq_some_iff.mp hmap
  have h₁ : Unscanned m m₁ := by
    unfold getBlock at hget
    split at hget
    · cases hget
      exact Unscanned.refl m
    · obtain ⟨t, -, heq⟩ := Option.map_eq_some_iff.mp hget
      cases heq
      exact unscanned_update rfl rfl fun blk' h => by
        cases h
        exact Or.inl rfl
  have h₂ : Unscanned m₁ m₂ := by
    unfold addEntry at hadd
    dsimp only at hadd
    split at hadd
    · cases hadd
    · rename_i blk hb
      obtain ⟨t, -, rfl⟩ := Option.map_eq_some_iff.mp hadd
      exact unscanned_update rfl rfl fun blk' h => by
        cases h
        exact Or.inr ⟨blk, hb, rfl⟩
  exact (h₁.trans h₂).trans (unscanned_prune m₂)

theorem unscanned_put {m' : ToolMemory} {id dsml : Bytes} {source : ToolMemorySource}
    (h : m.put id dsml source = some m') : Unscanned m m' := by
  unfold ToolMemory.put at h
  split at h
  · cases h
    exact Unscanned.refl m
  · split at h
    · exact unscanned_putNew h
    · split at h
      · cases h
        exact ((unscanned_markRam m _ source).trans (unscanned_touch _ _)).trans (unscanned_prune _)
      · exact (unscanned_removeEntry m _).trans (unscanned_putNew h)

theorem unscanned_lookup (m : ToolMemory) (id : Bytes) : Unscanned m (m.lookup id).1 := by
  unfold ToolMemory.lookup
  split
  · exact Unscanned.refl m
  · split
    · exact Unscanned.refl m
    · split
      · exact Unscanned.refl m
      · exact unscanned_touch m _

/-- Fewer pairs, and the same marks. -/
theorem Sound.mono (h : m.Sound ps) {m' : ToolMemory} (hu : Unscanned m m') (hholds : m'.Holds qs)
    (hsub : ∀ p ∈ qs, p ∈ ps ∨ (NulFree p.1 ∧ NulFree p.2)) : m'.Sound qs where
  holds := hholds
  cstrs p hp := (hsub p hp).elim (h.cstrs p) fun hc => hc
  seen := by
    rw [hu.clock]
    exact hu.seen _ h.seen

theorem mem_of_mem_bring {id : Bytes} {p : Bytes × Bytes} (h : p ∈ bring id ps) : p ∈ ps := by
  unfold bring at h
  cases hl : ps.lookup id with
  | none =>
    rw [hl] at h
    exact h
  | some d =>
    rw [hl] at h
    rcases List.mem_cons.mp h with rfl | h
    · obtain ⟨l₁, l₂, rfl, -⟩ := List.lookup_eq_some_iff.mp hl
      exact List.mem_append_right _ List.mem_cons_self
    · exact List.mem_of_mem_filter h

theorem Sound.lookup (h : m.Sound ps) (id : Bytes) : (m.lookup id).1.Sound (bring id ps) :=
  h.mono (unscanned_lookup m id) (h.holds.lookup id).1 fun _ hp => Or.inl (mem_of_mem_bring hp)

theorem Sound.put (h : m.Sound ps) {id dsml : Bytes} (hid : NulFree id) (hd : NulFree dsml)
    {source : ToolMemorySource} {m' : ToolMemory} (hput : m.put id dsml source = some m') :
    ∃ ps', m'.Sound ps' := by
  have hu := unscanned_put hput
  by_cases hnil : id = [] ∨ dsml = []
  · unfold ToolMemory.put at hput
    rw [if_pos hnil] at hput
    exact ⟨ps, Option.some.inj hput ▸ h⟩
  · obtain ⟨hid₀, hd₀⟩ := not_or.mp hnil
    obtain ⟨m₁, hput', hholds, -⟩ := h.holds.put hid₀ hd₀ source
    obtain ⟨n, hpruned, -⟩ := hholds.prune
    rw [hput'] at hput
    cases hput
    refine ⟨_, h.mono hu hpruned fun p hp => ?_⟩
    rcases List.mem_cons.mp (List.mem_of_mem_take hp) with rfl | hp
    · exact Or.inr ⟨hid, hd⟩
    · exact Or.inl (List.mem_of_mem_filter hp)

/-- The strings that an operation puts. -/
def strings : Op → List Bytes
  | .put _ id dsml _ => [id, dsml]
  | .remember _ ids rawDsml => rawDsml :: ids
  | _ => []

/-- **Every operation** on C strings leaves the memory sound, … -/
theorem Sound.step (h : m.Sound ps) {op : Op} (hop : ∀ s ∈ strings op, NulFree s) {m' : ToolMemory}
    (hstep : m.step op = some m') : ∃ ps', m'.Sound ps' := by
  cases op with
  | put disabled id dsml source =>
    unfold ToolMemory.step toolMemoryPutSource at hstep
    dsimp only at hstep
    split at hstep
    · exact ⟨ps, Option.some.inj hstep ▸ h⟩
    · exact h.put (hop id (by simp [strings])) (hop dsml (by simp [strings])) hstep
  | remember disabled ids rawDsml =>
    unfold ToolMemory.step toolMemoryRemember at hstep
    dsimp only at hstep
    split at hstep
    · exact ⟨ps, Option.some.inj hstep ▸ h⟩
    · have hraw := hop rawDsml (by simp [strings])
      have hids : ∀ id ∈ ids, NulFree id := fun id hid => hop id (by simp [strings, hid])
      clear hop
      induction ids generalizing m ps with
      | nil =>
        cases hstep
        exact ⟨ps, h⟩
      | cons id ids ih =>
        rw [List.foldlM_cons] at hstep
        obtain ⟨m₁, hput, hrest⟩ := Option.bind_eq_some_iff.mp hstep
        obtain ⟨ps₁, h₁⟩ := h.put (hids id List.mem_cons_self) hraw hput
        exact ih h₁ hrest fun i hi => hids i (List.mem_cons_of_mem _ hi)
  | lookup id =>
    cases hstep
    exact ⟨_, h.lookup id⟩
  | prune =>
    cases hstep
    obtain ⟨n, hpruned, -⟩ := h.holds.prune
    exact ⟨_, h.mono (unscanned_prune m) hpruned fun p hp => Or.inl (List.mem_of_mem_take hp)⟩
  | attach disabled stats msgs =>
    cases hstep
    unfold toolMemoryAttachToMessages
    split
    · exact ⟨ps, h⟩
    · rw [attachLoop_memory]
      clear hop
      generalize attachIds msgs = ids
      induction ids generalizing m ps with
      | nil => exact ⟨ps, h⟩
      | cons id ids ih => exact ih (h.lookup id)

/-- … so does measuring a map, … -/
theorem Sound.measure (h : m.Sound ps) (hclock : m.scanClock + 1 < 0x10000000000000000) (text : Bytes) :
    (m.measure text).1.Sound ps := by
  obtain ⟨done, hmeasure⟩ := h.measure_eq hclock text
  rw [hmeasure]
  exact h.marked (Nat.le_succ _) done

/-- … writing it, … -/
theorem Sound.write (h : m.Sound ps) (hclock : m.scanClock + 2 < 0x10000000000000000)
    (disabled : Bool) (text : Bytes) : (kvToolMapWrite disabled m text).1.Sound ps := by
  unfold kvToolMapWrite
  split
  · exact h
  · obtain ⟨done, hmeasure⟩ := h.measure_eq (by omega) text
    have hsound := h.marked (Nat.le_succ m.scanClock) done
    rw [hmeasure]
    dsimp only
    split
    · rename_i m₁ heq
      obtain ⟨rfl, -⟩ := Prod.mk.inj heq
      exact hsound
    · rename_i m₁ count bytes heq
      obtain ⟨rfl, -⟩ := Prod.mk.inj heq
      split
      · exact hsound
      · have htick : ({ m.marked (m.scanClock + 1) done with
            scanClock := m.scanClock + 1 } : ToolMemory).scanTick = m.scanClock + 2 :=
          scanTick_eq (by dsimp only; omega)
        obtain ⟨order, hrep, -⟩ := hsound.holds
        have hrep' := hrep.marked 0 (m.scanClock + 2) []
        rw [marked_nil] at hrep'
        have hseen : ∀ b blk, ({ m.marked (m.scanClock + 1) done with
            scanClock := m.scanClock + 2 } : ToolMemory).block b = some blk →
              blk.seen ≠ m.scanClock + 2 := fun b blk hb => by
          have hle' : blk.seen ≤ m.scanClock + 1 := hsound.seen b blk hb
          omega
        obtain ⟨done', hloop⟩ := hrep'.writeLoop_marked hseen [] (toolBlocks text)
        rw [marked_nil] at hloop
        rw [htick, hloop]
        exact hsound.marked (Nat.le_succ (m.scanClock + 1)) done'

/-- … and loading one. -/
theorem Sound.load (h : m.Sound ps) {wanted : Option (List Bytes)} {n loaded loaded' : Nat}
    {bytes : Bytes} {m' : ToolMemory}
    (hload : loadLoop wanted n m loaded bytes = some (m', loaded')) : ∃ ps', m'.Sound ps' := by
  induction n generalizing m ps loaded bytes with
  | zero =>
    cases hload
    exact ⟨ps, h⟩
  | succ n ih =>
    unfold loadLoop at hload
    dsimp only at hload
    split at hload
    · cases hload
      exact ⟨ps, h⟩
    · split at hload
      · cases hload
        exact ⟨ps, h⟩
      · split at hload
        · cases hload
          exact ⟨ps, h⟩
        · split at hload
          · obtain ⟨m₁, hput, hrest⟩ := Option.bind_eq_some_iff.mp hload
            obtain ⟨ps₁, h₁⟩ := h.put (nulFree_cstr _) (nulFree_cstr _) hput
            exact ih h₁ hrest
          · exact ih h hload

theorem sound_empty (maxEntries : Int) (maxBytes : Nat) : (empty maxEntries maxBytes).Sound [] where
  holds := holds_empty maxEntries maxBytes
  cstrs := fun p hp => absurd hp List.not_mem_nil
  seen := fun b blk hb => (by cases hb)

end ToolMemory

instance (s : Bytes) : Decidable (NulFree s) := inferInstanceAs (Decidable (∀ c ∈ s, c ≠ 0))

/-- A memory with one call. -/
theorem sound_one {id dsml : Bytes} (hid : id ≠ [] ∧ NulFree id) (hd : dsml ≠ [] ∧ NulFree dsml)
    (hfits : ToolMemory.pairBytes [(id, dsml)] ≤ DS4_TOOL_MEMORY_MAX_BYTES) :
    ∃ m, (ToolMemory.empty 0 0).put id dsml .ram = some m ∧ m.Sound [(id, dsml)] ∧
      m.scanClock + 2 < 0x10000000000000000 := by
  obtain ⟨m, hput, hholds, he, hb⟩ := (ToolMemory.holds_empty 0 0).put hid.1 hd.1 .ram
  have hone : m.Holds [(id, dsml)] := hholds
  have hlimit : m.overLimit = false := by
    rw [hone.overLimit_iff]
    unfold ToolMemory.toolMemoryMaxEntries ToolMemory.toolMemoryMaxBytes
    rw [he, hb]
    exact ⟨(by decide : (1 : Int) ≤ 100000), hfits⟩
  rw [ToolMemory.prune_eq_self hlimit] at hput
  have hu := ToolMemory.unscanned_put hput
  refine ⟨m, hput, (ToolMemory.sound_empty 0 0).mono hu hone fun p hp => ?_, ?_⟩
  · obtain rfl := List.mem_singleton.mp hp
    exact Or.inr ⟨hid.2, hd.2⟩
  · rw [hu.clock]
    decide

/-- A call of one parameter. -/
def callBlock (value : Bytes) : Bytes :=
  lit "<tool_calls><invoke name=\"f\"><parameter name=\"x\" string=\"true\">" ++ value ++
    lit "</parameter></invoke></tool_calls>"

end DS4.Server
