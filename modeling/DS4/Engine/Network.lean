import DS4.Lib.Ring

namespace DS4.Engine

/-!
# Engine — the target network and its caches

The target network is a family of pure functions of the token history: the row it stores for a
token, the compressed rows, the compressor frontiers, the logits.  The caches are physical state:
a ring of raw rows, append-only compressed rows with a counter, and the frontiers.

* `Rows`, `Fronts`, `Holds` — the caches represent a history: its rows are in their slots, and
  counters and frontiers are those of the history.
* `Kv.write` — what one decoded token stores; `holds_write`.
* `Kv.smash` — what a failed call may leave behind; `rows_smash`.
* `Kv.restore` — counters and frontiers go back, rows stay; `holds_restore`.
-/

/-! ### The network -/

/-- The target network.  `Layer` indexes the raw caches, `Stream` the compressed ones (attention
    and indexer). -/
structure Network where
  Layer : Type
  Stream : Type
  Row : Type
  Front : Type
  Logits : Type
  /-- `raw_cap` -/
  rawCap : Nat
  /-- `raw_window` -/
  rawWindow : Nat
  window_le : rawWindow ≤ rawCap
  /-- the raw row of the last token of a history -/
  row : Layer → List Nat → Row
  /-- the compressed rows of a history -/
  comp : Stream → List Nat → List Row
  comp_nil : ∀ s, comp s [] = []
  comp_prefix : ∀ s h t, comp s h <+: comp s (h ++ [t])
  /-- the compressor state of a history -/
  front : Stream → List Nat → Front
  logits : List Nat → Logits
  /-- `sample_argmax` -/
  top : Logits → Nat

variable {net : Network}

theorem comp_prefix_append (s : net.Stream) (h ts : List Nat) :
    net.comp s h <+: net.comp s (h ++ ts) := by
  induction ts generalizing h with
  | nil => simp
  | cons t ts ih =>
    rw [List.append_cons]
    exact (net.comp_prefix s h t).trans (ih (h ++ [t]))

/-! ### The caches -/

/-- The backend caches: `raw` by slot, `comp` by row number, `nComp` and the frontiers. -/
structure Kv (net : Network) where
  raw : net.Layer → Nat → net.Row
  comp : net.Stream → Nat → net.Row
  nComp : net.Stream → Nat
  front : net.Stream → net.Front

/-- The rows of the history are in place. -/
structure Rows (net : Network) (h : List Nat) (kv : Kv net) : Prop where
  raw : ∀ l, Lib.Window net.rawCap net.rawWindow h.length (fun p => net.row l (h.take (p + 1)))
    (kv.raw l)
  comp : ∀ s j (hj : j < (net.comp s h).length), kv.comp s j = (net.comp s h)[j]

/-- Counters and frontiers are those of the history. -/
structure Fronts (net : Network) (h : List Nat) (kv : Kv net) : Prop where
  nComp : ∀ s, kv.nComp s = (net.comp s h).length
  front : ∀ s, kv.front s = net.front s h

/-- The caches are those of the history. -/
structure Holds (net : Network) (h : List Nat) (kv : Kv net) : Prop where
  rows : Rows net h kv
  fronts : Fronts net h kv

namespace Kv

variable (kv : Kv net)

/-- The caches after the last token of `h` has been decoded. -/
def write (h : List Nat) : Kv net where
  raw := fun l i => if i = (h.length - 1) % net.rawCap then net.row l h else kv.raw l i
  comp := fun s j => if kv.nComp s ≤ j then ((net.comp s h)[j]?).getD (kv.comp s j) else kv.comp s j
  nComp := fun s => (net.comp s h).length
  front := fun s => net.front s h

/-- No tokens: counters at zero, empty frontiers. -/
def reset : Kv net :=
  { kv with nComp := fun s => (net.comp s []).length, front := fun s => net.front s [] }

/-- A call for `n` tokens from `pos` on has failed: the rows it was to write, the counters and the
    frontiers may be anything. -/
def smash (pos n : Nat) (junk : Kv net) : Kv net where
  raw := fun l i =>
    if (List.range n).any (fun k => i = (pos + k) % net.rawCap) then junk.raw l i else kv.raw l i
  comp := fun s j => if kv.nComp s ≤ j then junk.comp s j else kv.comp s j
  nComp := junk.nComp
  front := junk.front

end Kv

/-- A `ds4_spec_frontier`, or the captured prefix: counters and frontiers. -/
structure Frontier (net : Network) where
  nComp : net.Stream → Nat
  front : net.Stream → net.Front

/-- The counters and frontiers of the caches. -/
def Kv.frontier (kv : Kv net) : Frontier net := ⟨kv.nComp, kv.front⟩

/-- `spec_frontier_restore`, `spec_frontier_commit_prefix1`: the rows stay. -/
def Kv.restore (kv : Kv net) (f : Frontier net) : Kv net :=
  { kv with nComp := f.nComp, front := f.front }

/-! ### Rows -/

variable {h : List Nat} {kv : Kv net}

theorem holds_reset (kv : Kv net) : Holds net [] kv.reset := by
  constructor
  · constructor
    · intro l
      exact Lib.window_zero _ _ _ _
    · intro s j hj
      rw [net.comp_nil s] at hj
      exact absurd hj (by simp)
  · exact ⟨fun _ => rfl, fun _ => rfl⟩

/-- **Decoding.** The caches of a history become those of the history with one token more. -/
theorem holds_write (hk : Holds net h kv) (t : Nat) : Holds net (h ++ [t]) (kv.write (h ++ [t])) := by
  have hlen : (h ++ [t]).length = h.length + 1 := by simp
  have hlast : (h ++ [t]).length - 1 = h.length := by omega
  refine ⟨⟨?_, ?_⟩, ⟨fun _ => rfl, fun _ => rfl⟩⟩
  · intro l
    -- the rows of the longer history agree with the old ones up to its last token
    have hold := (hk.rows.raw l).congr
      (fun p => net.row l ((h ++ [t]).take (p + 1))) (by
        intro p hp
        show net.row l (h.take (p + 1)) = net.row l ((h ++ [t]).take (p + 1))
        rw [List.take_append_of_le_length (by omega)])
    rw [hlen]
    apply hold.push net.window_le
    · show (if h.length % net.rawCap = ((h ++ [t]).length - 1) % net.rawCap then _ else _) = _
      rw [hlast, if_pos rfl, ← hlen, List.take_length]
    · intro i hi
      show (if i = ((h ++ [t]).length - 1) % net.rawCap then _ else _) = _
      rw [hlast, if_neg hi]
  · intro s j hj
    show (if kv.nComp s ≤ j then ((net.comp s (h ++ [t]))[j]?).getD (kv.comp s j) else kv.comp s j)
      = (net.comp s (h ++ [t]))[j]
    by_cases hnew : kv.nComp s ≤ j
    · rw [if_pos hnew, List.getElem?_eq_getElem hj, Option.getD_some]
    · rw [if_neg hnew]
      rw [hk.fronts.nComp s] at hnew
      have hj' : j < (net.comp s h).length := by omega
      rw [hk.rows.comp s j hj']
      exact (net.comp_prefix s h t).getElem hj'

/-- The rows of a history survive what is stored for tokens after it. -/
theorem rows_of_agree {kv' : Kv net} {k : Nat} (hr : Rows net h kv)
    (hroom : Lib.RingRoom net.rawCap net.rawWindow h.length k)
    (hraw : ∀ l i, (∀ q, h.length ≤ q → q < h.length + k → i ≠ q % net.rawCap) →
      kv'.raw l i = kv.raw l i)
    (hcomp : ∀ s j, j < (net.comp s h).length → kv'.comp s j = kv.comp s j) : Rows net h kv' := by
  constructor
  · intro l
    exact (hr.raw l).of_agree hroom (hraw l)
  · intro s j hj
    rw [hcomp s j hj]
    exact hr.comp s j hj

/-- A later token's decode keeps the rows of the history. -/
theorem rows_write {k : Nat} {ts : List Nat} (t : Nat) (hr : Rows net h kv)
    (hroom : Lib.RingRoom net.rawCap net.rawWindow h.length k)
    (hk : Holds net (h ++ ts) kv) (hts : ts.length < k) :
    Rows net h (kv.write (h ++ ts ++ [t])) := by
  apply rows_of_agree hr hroom
  · intro l i hi
    have hlen : (h ++ ts ++ [t]).length - 1 = h.length + ts.length := by simp
    show (if i = ((h ++ ts ++ [t]).length - 1) % net.rawCap then _ else _) = _
    rw [hlen, if_neg (hi _ (by omega) (by omega))]
  · intro s j hj
    have hle := (comp_prefix_append s h ts).length_le
    have hn := hk.fronts.nComp s
    show (if kv.nComp s ≤ j then _ else _) = _
    rw [if_neg (by omega)]

/-- **Failed calls.** A failed call for later tokens keeps the rows of the history. -/
theorem rows_smash {k n : Nat} {ts : List Nat} (junk : Kv net) (hr : Rows net h kv)
    (hroom : Lib.RingRoom net.rawCap net.rawWindow h.length k)
    (hk : Holds net (h ++ ts) kv) (hts : ts.length + n ≤ k) :
    Rows net h (kv.smash (h ++ ts).length n junk) := by
  apply rows_of_agree hr hroom
  · intro l i hi
    have hlen : (h ++ ts).length = h.length + ts.length := List.length_append
    show (if (List.range n).any (fun m => i = ((h ++ ts).length + m) % net.rawCap) then _ else _) = _
    rw [if_neg]
    rw [Bool.not_eq_true, List.any_eq_false]
    intro m hm
    rw [List.mem_range] at hm
    rw [decide_eq_true_eq, hlen, Nat.add_assoc]
    exact hi _ (by omega) (by omega)
  · intro s j hj
    have hle := (comp_prefix_append s h ts).length_le
    have hn := hk.fronts.nComp s
    show (if kv.nComp s ≤ j then _ else _) = _
    rw [if_neg (by omega)]

/-- Counters and frontiers do not touch the rows. -/
theorem rows_restore (f : Frontier net) : Rows net h (kv.restore f) ↔ Rows net h kv :=
  ⟨fun hr => ⟨hr.raw, hr.comp⟩, fun hr => ⟨hr.raw, hr.comp⟩⟩

/-- **Restoring.** Rows of a history and its saved counters and frontiers are its caches. -/
theorem holds_restore {saved : Kv net} (hr : Rows net h kv) (hf : Fronts net h saved) :
    Holds net h (kv.restore saved.frontier) :=
  ⟨(rows_restore _).mpr hr, ⟨hf.nComp, hf.front⟩⟩

end DS4.Engine
