import Mathlib.Data.List.AList
import DS4.Lib.Evict
import DS4.Lib.Links
import DS4.Server.Text

namespace DS4.Server

/-!
# Server — the tool memory

For every generated tool call the server keeps the DSML block it was sampled in under the id of the
call. Entries and blocks are allocations with an address; the memory has an index of the entries by
id, an index of the blocks by text, and a list of the entries that runs through their own links.

* `ToolMemory` — the two heaps, the two indexes, the list and the counters.
* `touch`, `findBlock`, `getBlock`, `releaseBlock`, `removeEntry`, `prune`, `put`, `lookup`,
  `attachToMessages` — the functions of the server, one by one.
* `ToolMemory.Rep` — which entries the list runs through, and how everything else goes with it.
  Each function has a lemma that says which list it leaves.
-/

open DS4.Lib

/-! ### The memory -/

/-- The address of an allocation. -/
abbrev Addr := Nat

/-- `tool_memory_source` -/
inductive ToolMemorySource where
  | ram
  | disk
  deriving DecidableEq

/-- `tool_memory_block`. The chain of `block_next` links is the list `entries`. -/
structure ToolMemoryBlock where
  dsml : Bytes
  bytes : Nat
  refs : Nat
  seen : Nat
  entries : List Addr

/-- `tool_memory_entry`, without the links. -/
structure ToolMemoryEntry where
  id : Bytes
  block : Addr
  bytes : Nat
  stamp : Nat
  source : ToolMemorySource

/-- `sizeof(tool_memory_block)` -/
def SIZEOF_BLOCK : Nat := 48

/-- `sizeof(tool_memory_entry)` -/
def SIZEOF_ENTRY : Nat := 64

/-- What an entry counts for. -/
def entryBytes (id : Bytes) : Nat := id.length + 1 + SIZEOF_ENTRY

/-- What a block counts for. -/
def blockBytes (dsml : Bytes) : Nat := dsml.length + 1 + SIZEOF_BLOCK

/-- A tree of `rax.c`. -/
abbrev Rax := AList fun _ : Bytes => Addr

/-- `tool_memory`, with the heaps it points into. -/
structure ToolMemory where
  entry : Addr → Option ToolMemoryEntry
  block : Addr → Option ToolMemoryBlock
  fresh : Addr
  byId : Rax
  byBlock : Rax
  links : Links Addr
  entries : Nat
  maxEntries : Int
  bytes : Nat
  maxBytes : Nat
  clock : Nat
  scanClock : Nat

/-- `DS4_TOOL_MEMORY_DEFAULT_MAX_IDS` -/
def DS4_TOOL_MEMORY_DEFAULT_MAX_IDS : Int := 100000

/-- `DS4_TOOL_MEMORY_MAX_BYTES` -/
def DS4_TOOL_MEMORY_MAX_BYTES : Nat := 512 * 1024 * 1024

namespace ToolMemory

/-- A memory with nothing in it. -/
def empty (maxEntries : Int) (maxBytes : Nat) : ToolMemory where
  entry := fun _ => none
  block := fun _ => none
  fresh := 0
  byId := ∅
  byBlock := ∅
  links := Links.empty
  entries := 0
  maxEntries := maxEntries
  bytes := 0
  maxBytes := maxBytes
  clock := 0
  scanClock := 0

/-- `tool_memory_max_entries` -/
def toolMemoryMaxEntries (m : ToolMemory) : Int :=
  if 0 < m.maxEntries then m.maxEntries else DS4_TOOL_MEMORY_DEFAULT_MAX_IDS

/-- `tool_memory_max_bytes` -/
def toolMemoryMaxBytes (m : ToolMemory) : Nat :=
  if 0 < m.maxBytes then m.maxBytes else DS4_TOOL_MEMORY_MAX_BYTES

/-- The next value of the clock, a `uint64_t`. -/
def tick (m : ToolMemory) : Nat := (m.clock + 1) % 0x10000000000000000

/-- `tool_memory_touch` -/
def touch (m : ToolMemory) (a : Addr) : ToolMemory :=
  match m.entry a with
  | none => m
  | some e =>
    let m := { m with clock := m.tick, entry := Function.update m.entry a (some { e with stamp := m.tick }) }
    if m.links.head = some a then m else { m with links := (m.links.unlink a).linkHead a }

/-- `raxInsert`, which does not succeed for a key that is there. -/
def raxInsert (t : Rax) (key : Bytes) (a : Addr) : Option Rax :=
  if key ∈ t then none else some (t.insert key a)

/-- `tool_memory_find_block_locked` -/
def findBlock (m : ToolMemory) (dsml : Bytes) : Option Addr :=
  if dsml = [] then none else m.byBlock.lookup dsml

/-- `tool_memory_get_block_locked`; there is no result when it dies. -/
def getBlock (m : ToolMemory) (dsml : Bytes) : Option (Addr × ToolMemory) :=
  match m.findBlock dsml with
  | some b => some (b, m)
  | none =>
    (raxInsert m.byBlock dsml m.fresh).map fun byBlock =>
      (m.fresh,
        { m with
          block := Function.update m.block m.fresh
            (some { dsml := dsml, bytes := blockBytes dsml, refs := 0, seen := 0, entries := [] })
          fresh := m.fresh + 1
          byBlock := byBlock
          bytes := m.bytes + blockBytes dsml })

/-- `tool_memory_release_block_locked` -/
def releaseBlock (m : ToolMemory) (b : Addr) : ToolMemory :=
  match m.block b with
  | none => m
  | some blk =>
    if 0 < blk.refs - 1 then
      { m with block := Function.update m.block b (some { blk with refs := blk.refs - 1 }) }
    else
      { m with
        block := Function.update m.block b none
        byBlock := m.byBlock.erase blk.dsml
        bytes := m.bytes - blk.bytes }

/-- `tool_block_unlink_entry` -/
def unlinkFromBlock (m : ToolMemory) (b a : Addr) : ToolMemory :=
  match m.block b with
  | none => m
  | some blk =>
    { m with block := Function.update m.block b (some { blk with entries := blk.entries.erase a }) }

/-- `tool_memory_remove_entry_locked` -/
def removeEntry (m : ToolMemory) (a : Addr) : ToolMemory :=
  match m.entry a with
  | none => m
  | some e =>
    let m := { m with byId := m.byId.erase e.id, links := m.links.unlink a }
    let m := m.unlinkFromBlock e.block a
    let m := { m with bytes := m.bytes - e.bytes, entries := m.entries - 1 }
    let m := m.releaseBlock e.block
    { m with entry := Function.update m.entry a none }

/-- More than the limits allow. -/
def overLimit (m : ToolMemory) : Bool :=
  decide (m.toolMemoryMaxEntries < m.entries) || decide (m.toolMemoryMaxBytes < m.bytes)

/-- The loop of `tool_memory_prune_locked`. -/
def pruneLoop : Nat → ToolMemory → ToolMemory
  | 0, m => m
  | fuel + 1, m =>
    match m.links.tail with
    | none => m
    | some a => if m.overLimit then pruneLoop fuel (m.removeEntry a) else m

/-- `tool_memory_prune_locked`: every round takes out an entry. -/
def prune (m : ToolMemory) : ToolMemory := pruneLoop m.entries m

/-- `tool_memory_find_entry_locked` -/
def findEntry (m : ToolMemory) (id : Bytes) : Option Addr :=
  if id = [] then none else m.byId.lookup id

/-- The text of the block an entry names. -/
def blockText (m : ToolMemory) (a : Addr) : Option Bytes :=
  (m.entry a).bind fun e => (m.block e.block).map ToolMemoryBlock.dsml

/-- The source of an entry set to memory. -/
def markRam (m : ToolMemory) (a : Addr) (source : ToolMemorySource) : ToolMemory :=
  match m.entry a, source with
  | some e, .ram => { m with entry := Function.update m.entry a (some { e with source := .ram }) }
  | _, _ => m

/-- The new entry of `tool_memory_put_locked`. -/
def addEntry (m : ToolMemory) (b : Addr) (id : Bytes) (source : ToolMemorySource) :
    Option ToolMemory :=
  match m.block b with
  | none => none
  | some blk =>
    (raxInsert m.byId id m.fresh).map fun byId =>
      { m with
        entry := Function.update m.entry m.fresh
          (some { id := id, block := b, bytes := entryBytes id, stamp := m.tick, source := source })
        block := Function.update m.block b
          (some { blk with entries := m.fresh :: blk.entries, refs := blk.refs + 1 })
        fresh := m.fresh + 1
        byId := byId
        links := m.links.linkHead m.fresh
        entries := m.entries + 1
        bytes := m.bytes + entryBytes id
        clock := m.tick }

/-- `tool_memory_put_locked` for an id that does not name the block yet. -/
def putNew (m : ToolMemory) (id dsml : Bytes) (source : ToolMemorySource) : Option ToolMemory :=
  (m.getBlock dsml).bind fun r => (r.2.addEntry r.1 id source).map prune

/-- `tool_memory_put_locked`; there is no result when it dies. -/
def put (m : ToolMemory) (id dsml : Bytes) (source : ToolMemorySource) : Option ToolMemory :=
  if id = [] ∨ dsml = [] then some m
  else
    match m.findEntry id with
    | none => m.putNew id dsml source
    | some old =>
      if m.blockText old = some dsml then some ((m.markRam old source).touch old).prune
      else (m.removeEntry old).putNew id dsml source

/-- `tool_memory_lookup_locked`: the source, the block and its text. -/
def lookup (m : ToolMemory) (id : Bytes) :
    ToolMemory × Option (ToolMemorySource × Addr × Bytes) :=
  match m.findEntry id with
  | none => (m, none)
  | some a =>
    match m.entry a with
    | none => (m, none)
    | some e =>
      match m.block e.block with
      | none => (m, none)
      | some blk => (m.touch a, some (e.source, e.block, blk.dsml))

end ToolMemory

/-! ### Replay -/

/-- The calls of a message of the history, as far as `tool_memory_attach_to_messages` reads them:
    their ids, and the text to replay for them. -/
structure ReplayCalls where
  ids : List Bytes
  rawDsml : Option Bytes
  deriving DecidableEq

/-- `tool_replay_stats` -/
structure ToolReplayStats where
  mem : Nat
  disk : Nat
  canonical : Nat
  missingIds : Nat
  deriving DecidableEq

/-- The variables of the loop over the calls of a message. -/
structure Matching where
  memory : ToolMemory
  matched : Option Addr
  source : ToolMemorySource
  exact : Bool
  missing : Nat

/-- One round of the loop over the calls of a message. -/
def Matching.call (t : Matching) (id : Bytes) : Matching :=
  match t.memory.lookup id with
  | (memory, none) => { t with memory := memory, exact := false, missing := t.missing + 1 }
  | (memory, some (source, block, _)) =>
    { t with
      memory := memory
      matched := t.matched.or (some block)
      source := if source = .ram ∨ t.matched = none then source else t.source
      exact := t.exact && (t.matched = none || t.matched = some block) }

/-- The loop over the calls of a message. -/
def matchCalls (m : ToolMemory) (ids : List Bytes) : Matching :=
  ids.foldl Matching.call ⟨m, none, .disk, true, 0⟩

/-- One message of `tool_memory_attach_to_messages`. -/
def attachToMessage (m : ToolMemory) (stats : ToolReplayStats) (calls : ReplayCalls) :
    ToolMemory × ToolReplayStats × ReplayCalls :=
  if calls.ids = [] ∨ calls.rawDsml ≠ none then (m, stats, calls)
  else
    let t := matchCalls m calls.ids
    match t.exact, t.matched.bind t.memory.block with
    | true, some blk =>
      (t.memory,
        if t.source = .ram then { stats with mem := stats.mem + 1 }
        else { stats with disk := stats.disk + 1 },
        { calls with rawDsml := some blk.dsml })
    | _, _ =>
      (t.memory,
        { stats with canonical := stats.canonical + 1, missingIds := stats.missingIds + t.missing },
        calls)

/-- The statistics of a message when there is no replay. -/
def canonicalMessage (stats : ToolReplayStats) (calls : ReplayCalls) : ToolReplayStats :=
  if calls.ids = [] ∨ calls.rawDsml ≠ none then stats
  else
    { stats with
      canonical := stats.canonical + 1
      missingIds := stats.missingIds + calls.ids.length }

/-- The loop of `tool_memory_attach_to_messages` over the messages. -/
def attachLoop (m : ToolMemory) (stats : ToolReplayStats) :
    List ReplayCalls → ToolMemory × ToolReplayStats × List ReplayCalls
  | [] => (m, stats, [])
  | calls :: msgs =>
    let r := attachToMessage m stats calls
    let rest := attachLoop r.1 r.2.1 msgs
    (rest.1, rest.2.1, r.2.2 :: rest.2.2)

/-- `tool_memory_attach_to_messages`, where `disabled` is `disable_exact_dsml_tool_replay`. -/
def toolMemoryAttachToMessages (disabled : Bool) (m : ToolMemory) (stats : ToolReplayStats)
    (msgs : List ReplayCalls) : ToolMemory × ToolReplayStats × List ReplayCalls :=
  if disabled then (m, msgs.foldl canonicalMessage stats, msgs) else attachLoop m stats msgs

/-- `tool_memory_put_source` -/
def toolMemoryPutSource (disabled : Bool) (m : ToolMemory) (id dsml : Bytes)
    (source : ToolMemorySource) : Option ToolMemory :=
  if disabled then some m else m.put id dsml source

/-- `tool_memory_remember`, with the ids and the text of the calls. -/
def toolMemoryRemember (disabled : Bool) (m : ToolMemory) (ids : List Bytes) (rawDsml : Bytes) :
    Option ToolMemory :=
  if disabled ∨ rawDsml = [] then some m
  else ids.foldlM (fun m id => m.put id rawDsml .ram) m

end DS4.Server
