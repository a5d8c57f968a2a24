import DS4.Checkpoint.Format
import Mathlib.Data.List.Nodup
import Mathlib.Order.Nat

namespace DS4.Checkpoint

/-!
# Session payloads — what a payload says

The abstract content of a checkpoint, without the places where a session keeps it, and its bytes.
The writer and the reader of each back end are compared with it.

* `Content` — tokens, logits, row counters, and the live bytes of every buffer in logical order.
* `Content.encode` — its bytes behind a header; `Content.Sized` — the sizes the counters imply.
* `eq_of_flatMap_eq` — sections of known sizes are determined by their concatenation.
* `Produced` — the row counters that a number of tokens produces.
-/

open DS4.Lib

variable (sh : Shape)

/-- The buffers of one layer, in the order of the payload. -/
def layerBuffers (il : Nat) : List Buffer :=
  [.rawKv il, .attnCompKv il, .attnStateKv il, .attnStateScore il, .indexCompKv il,
    .indexStateKv il, .indexStateScore il]

/-- The buffers of the body, in the order of the payload. -/
def bodyBuffers : List Buffer := (List.range sh.nLayer).flatMap layerBuffers

theorem mem_layerBuffers {b : Buffer} {il : Nat} : b ∈ layerBuffers il ↔ b.layer = il := by
  cases b <;> simp [layerBuffers, Buffer.layer, eq_comm]

theorem mem_bodyBuffers {b : Buffer} : b ∈ bodyBuffers sh ↔ b.layer < sh.nLayer := by
  unfold bodyBuffers
  simp [List.mem_flatMap, mem_layerBuffers]

theorem bodyBuffers_nodup : (bodyBuffers sh).Nodup := by
  unfold bodyBuffers
  refine List.nodup_flatMap.mpr ⟨fun il _ => by simp [layerBuffers], ?_⟩
  refine List.nodup_range.imp fun {i j} hij => ?_
  intro b hb hb'
  exact hij (((mem_layerBuffers).mp hb).symm.trans ((mem_layerBuffers).mp hb'))

/-- How many bytes of a buffer are live: `rawLive` raw rows, and as many compressed rows as the
    counters say.  Layers without compression have raw rows only, and the indexer belongs to
    ratio 4. -/
def liveBytes (rawLive : Nat) (nComp nIndexComp : Nat → Nat) : Buffer → Nat
  | .rawKv _ => rawLive * sh.rowBytes
  | .attnCompKv il => if sh.ratio il = 0 then 0 else nComp il * sh.rowBytes
  | .attnStateKv il | .attnStateScore il => sh.layerAttnStateBytes (sh.ratio il)
  | .indexCompKv il => if sh.ratio il = 4 then nIndexComp il * sh.indexRowBytes else 0
  | .indexStateKv il | .indexStateScore il =>
    if sh.ratio il = 4 then sh.layerIndexStateBytes (sh.ratio il) else 0

variable {sh} in
/-- More rows need more bytes. -/
theorem liveBytes_mono {rawLive rawLive' : Nat} {nComp nIndexComp nComp' nIndexComp' : Nat → Nat}
    {b : Buffer}
    (hraw : rawLive ≤ rawLive') (hc : nComp b.layer ≤ nComp' b.layer)
    (hi : nIndexComp b.layer ≤ nIndexComp' b.layer) :
    liveBytes sh rawLive nComp nIndexComp b ≤ liveBytes sh rawLive' nComp' nIndexComp' b := by
  cases b with
  | rawKv il => exact Nat.mul_le_mul_right _ hraw
  | attnCompKv il =>
    show (if sh.ratio il = 0 then 0 else nComp il * sh.rowBytes) ≤
      if sh.ratio il = 0 then 0 else nComp' il * sh.rowBytes
    split
    · exact Nat.le_refl 0
    · exact Nat.mul_le_mul_right _ hc
  | indexCompKv il =>
    show (if sh.ratio il = 4 then nIndexComp il * sh.indexRowBytes else 0) ≤
      if sh.ratio il = 4 then nIndexComp' il * sh.indexRowBytes else 0
    split
    · exact Nat.mul_le_mul_right _ hi
    · exact Nat.le_refl 0
  | _ => exact Nat.le_refl _

variable {sh} in
/-- The live bytes of a buffer depend on the counters of its layer. -/
theorem liveBytes_congr {rawLive : Nat} {nComp nComp' nIndexComp nIndexComp' : Nat → Nat}
    {b : Buffer} (hc : nComp b.layer = nComp' b.layer)
    (hi : nIndexComp b.layer = nIndexComp' b.layer) :
    liveBytes sh rawLive nComp nIndexComp b = liveBytes sh rawLive nComp' nIndexComp' b :=
  Nat.le_antisymm (liveBytes_mono (Nat.le_refl _) (Nat.le_of_eq hc) (Nat.le_of_eq hi))
    (liveBytes_mono (Nat.le_refl _) (Nat.le_of_eq hc.symm) (Nat.le_of_eq hi.symm))

/-- The sizes of the buffers of a session with these capacities. -/
def HasBuffers (sh : Shape) (rawCap : Nat) (compCap : Nat → Nat) (buf : Buffer → List UInt8) :
    Prop :=
  ∀ b ∈ bodyBuffers sh, (buf b).length = liveBytes sh rawCap compCap compCap b

/-- A checkpoint, apart from where a session keeps it. -/
structure Content where
  tokens : List Int
  logits : List UInt8
  nComp : Nat → Nat
  nIndexComp : Nat → Nat
  /-- the live bytes of the buffers, raw rows oldest first -/
  live : Buffer → List UInt8

namespace Content

variable {sh}

/-- The sizes fit the counters. -/
structure Sized (sh : Shape) (c : Content) (rawLive : Nat) : Prop where
  tokens : ∀ t ∈ c.tokens, IsInt t
  logits : c.logits.length = sh.logitsBytes
  nComp : ∀ il < sh.nLayer, c.nComp il < 256 ^ 4
  nIndexComp : ∀ il < sh.nLayer, c.nIndexComp il < 256 ^ 4
  live : ∀ b ∈ bodyBuffers sh, (c.live b).length = liveBytes sh rawLive c.nComp c.nIndexComp b

/-- The bytes of a payload. -/
def encode (sh : Shape) (c : Content) (h : PayloadHeader) : List UInt8 :=
  putWords h.words ++ putWords (c.tokens.map u32) ++ c.logits ++
    putWords ((List.range sh.nLayer).map c.nComp) ++
    putWords ((List.range sh.nLayer).map c.nIndexComp) ++ (bodyBuffers sh).flatMap c.live

/-- The same tokens, logits, counters and live bytes. -/
structure Same (sh : Shape) (c d : Content) : Prop where
  tokens : c.tokens = d.tokens
  logits : c.logits = d.logits
  nComp : ∀ il < sh.nLayer, c.nComp il = d.nComp il
  nIndexComp : ∀ il < sh.nLayer, c.nIndexComp il = d.nIndexComp il
  live : ∀ b ∈ bodyBuffers sh, c.live b = d.live b

end Content

/-- **Sections.** Two families of sections with the same sizes and the same concatenation are the
    same. -/
theorem eq_of_flatMap_eq {α β : Type*} {l : List α} {f g : α → List β}
    (hlen : ∀ a ∈ l, (f a).length = (g a).length) (h : l.flatMap f = l.flatMap g) :
    ∀ a ∈ l, f a = g a := by
  induction l with
  | nil => exact fun a ha => absurd ha List.not_mem_nil
  | cons a l ih =>
    rw [List.flatMap_cons, List.flatMap_cons] at h
    obtain ⟨hhead, htail⟩ := List.append_inj h (hlen a List.mem_cons_self)
    intro b hb
    obtain rfl | hb := List.mem_cons.mp hb
    · exact hhead
    · exact ih (fun c hc => hlen c (List.mem_cons_of_mem _ hc)) htail b hb

theorem length_flatMap_of {α β : Type*} {l : List α} {f : α → List β} {n : α → Nat}
    (h : ∀ a ∈ l, (f a).length = n a) : (l.flatMap f).length = (l.map n).sum := by
  rw [List.length_flatMap]
  congr 1
  exact List.map_congr_left h

/-- A layer with ratio `r` has finished a compressed row after every `r` tokens, and the indexer
    of a ratio-4 layer has as many; the other counters are zero. -/
structure Produced (sh : Shape) (n : Nat) (nComp nIndexComp : Nat → Nat) : Prop where
  nComp : ∀ il < sh.nLayer, nComp il = if sh.ratio il = 0 then 0 else n / sh.ratio il
  nIndexComp : ∀ il < sh.nLayer, nIndexComp il = if sh.ratio il = 4 then n / sh.ratio il else 0

variable {sh} in
theorem Produced.congr {n : Nat} {nComp nComp' nIndexComp nIndexComp' : Nat → Nat}
    (hc : ∀ il < sh.nLayer, nComp il = nComp' il)
    (hi : ∀ il < sh.nLayer, nIndexComp il = nIndexComp' il) :
    Produced sh n nComp nIndexComp ↔ Produced sh n nComp' nIndexComp' := by
  constructor
  · exact fun h => ⟨fun il hil => (hc il hil).symm.trans (h.nComp il hil),
      fun il hil => (hi il hil).symm.trans (h.nIndexComp il hil)⟩
  · exact fun h => ⟨fun il hil => (hc il hil).trans (h.nComp il hil),
      fun il hil => (hi il hil).trans (h.nIndexComp il hil)⟩

/-- The size of a payload. -/
theorem Content.length_encode {c : Content} {rawLive : Nat} (hc : c.Sized sh rawLive)
    (h : PayloadHeader) :
    (c.encode sh h).length = 52 + 4 * c.tokens.length + sh.logitsBytes + 4 * sh.nLayer +
      4 * sh.nLayer +
      ((bodyBuffers sh).map (liveBytes sh rawLive c.nComp c.nIndexComp)).sum := by
  unfold encode
  simp only [List.length_append, putWords_length, List.length_map, List.length_range,
    PayloadHeader.words_length, DS4_SESSION_PAYLOAD_U32_FIELDS, hc.logits,
    length_flatMap_of hc.live]

/-- Steps that all succeed. -/
theorem mapM_ok {ε α β : Type} {l : List α} {f : α → Except ε β} {g : α → β}
    (h : ∀ a ∈ l, f a = .ok (g a)) : l.mapM f = .ok (l.map g) := by
  induction l with
  | nil => rfl
  | cons a l ih =>
    rw [List.mapM_cons, h a List.mem_cons_self, ih fun b hb => h b (List.mem_cons_of_mem _ hb)]
    rfl

namespace Content

variable {sh} {c : Content} {rawLive : Nat}

/-- Layers written one after the other are the body. -/
theorem mapM_layers {ε : Type} {f : Nat → Except ε (List UInt8)}
    (h : ∀ il < sh.nLayer, f il = .ok ((layerBuffers il).flatMap c.live)) :
    ∃ layers, (List.range sh.nLayer).mapM f = .ok layers ∧
      layers.flatten = (bodyBuffers sh).flatMap c.live := by
  refine ⟨_, mapM_ok fun il hil => h il (List.mem_range.mp hil), ?_⟩
  rw [bodyBuffers, List.flatMap_assoc]
  rfl

theorem Sized.live_nil (hc : c.Sized sh rawLive) {b : Buffer} (hb : b.layer < sh.nLayer)
    (h0 : liveBytes sh rawLive c.nComp c.nIndexComp b = 0) : c.live b = [] :=
  List.eq_nil_of_length_eq_zero ((hc.live b ((mem_bodyBuffers sh).mpr hb)).trans h0)

/-- **One layer**: the sections that the ratio of the layer calls for; the others are empty. -/
theorem Sized.layer_eq (hc : c.Sized sh rawLive) {il : Nat} (hil : il < sh.nLayer) :
    (layerBuffers il).flatMap c.live =
      if sh.ratio il = 0 then c.live (.rawKv il)
      else if sh.ratio il = 4 then
        c.live (.rawKv il) ++ c.live (.attnCompKv il) ++ c.live (.attnStateKv il) ++
          c.live (.attnStateScore il) ++ c.live (.indexCompKv il) ++ c.live (.indexStateKv il) ++
          c.live (.indexStateScore il)
      else
        c.live (.rawKv il) ++ c.live (.attnCompKv il) ++ c.live (.attnStateKv il) ++
          c.live (.attnStateScore il) := by
  have hindex : ¬ sh.ratio il = 4 → c.live (.indexCompKv il) = [] ∧ c.live (.indexStateKv il) = [] ∧
      c.live (.indexStateScore il) = [] := fun h4 =>
    ⟨hc.live_nil hil (if_neg h4), hc.live_nil hil (if_neg h4), hc.live_nil hil (if_neg h4)⟩
  simp only [layerBuffers, List.flatMap_cons, List.flatMap_nil, List.append_nil,
    ← List.append_assoc]
  by_cases h0 : sh.ratio il = 0
  · have hst : sh.layerAttnStateBytes (sh.ratio il) = 0 := by rw [h0]; rfl
    obtain ⟨hicomp, hikv, hiscore⟩ := hindex (by omega)
    have hcomp : c.live (.attnCompKv il) = [] := hc.live_nil hil (if_pos h0)
    have hkv : c.live (.attnStateKv il) = [] := hc.live_nil hil hst
    have hscore : c.live (.attnStateScore il) = [] := hc.live_nil hil hst
    rw [if_pos h0, hcomp, hkv, hscore, hicomp, hikv, hiscore]
    simp only [List.append_nil]
  · rw [if_neg h0]
    by_cases h4 : sh.ratio il = 4
    · rw [if_pos h4]
    · obtain ⟨hicomp, hikv, hiscore⟩ := hindex h4
      rw [if_neg h4, hicomp, hikv, hiscore]
      simp only [List.append_nil]

end Content

/-- The size functions of both back ends count the live bytes. -/
theorem sum_liveBytes (rawLive : Nat) (nComp nIndexComp : Nat → Nat) :
    ((bodyBuffers sh).map (liveBytes sh rawLive nComp nIndexComp)).sum =
      ((List.range sh.nLayer).map fun il =>
        rawLive * sh.headDim * 4 +
          if sh.ratio il = 0 then 0
          else
            nComp il * sh.headDim * 4 + sh.layerAttnStateBytes (sh.ratio il) +
              sh.layerAttnStateBytes (sh.ratio il) +
              if sh.ratio il = 4 then
                nIndexComp il * sh.indexerHeadDim * 4 + sh.layerIndexStateBytes (sh.ratio il) +
                  sh.layerIndexStateBytes (sh.ratio il)
              else 0).sum := by
  rw [bodyBuffers, List.map_flatMap, List.flatMap, List.sum_flatten, List.map_map]
  refine congrArg List.sum (List.map_congr_left fun il _ => ?_)
  show ((layerBuffers il).map _).sum = _
  simp only [layerBuffers, List.map_cons, List.map_nil, List.sum_cons, List.sum_nil, liveBytes,
    Shape.rowBytes, Shape.indexRowBytes, ← Nat.mul_assoc]
  by_cases h0 : sh.ratio il = 0
  · have hst : sh.layerAttnStateBytes (sh.ratio il) = 0 := by rw [h0]; rfl
    rw [if_pos h0, if_pos h0, hst]
    simp [h0]
  · rw [if_neg h0, if_neg h0]
    split <;> omega

end DS4.Checkpoint
