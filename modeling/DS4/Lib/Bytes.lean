import Mathlib.Algebra.GroupWithZero.Nat
import Mathlib.Data.List.Basic
import Mathlib.Data.List.Pairwise
import Mathlib.Logic.Function.Basic

namespace DS4.Lib

/-!
# Bytes: little-endian numbers, and spans of named buffers

* `leBytes`, `leValue` — a number as its low bytes; `leValue_leBytes` is the round trip.
* `splice` — a list with some elements replaced.
* `Span` — part of one of several buffers, read and written; `Span.read_write_of_disjoint` is the
  frame of a write.
* `Span.pieces` — a span in chunks.
* `writeAll` — several writes; `read_writeAll` reads one of them back.
* `assign` — consecutive bytes of a list for consecutive spans; `flatMap_read_writeAll_assign`.
* `take_writeAll_iff` — when writes change nothing.
-/

/-! ### Little-endian numbers -/

/-- The low `w` bytes of `v`, the least first. -/
def leBytes : Nat → Nat → List UInt8
  | 0, _     => []
  | w + 1, v => UInt8.ofNat v :: leBytes w (v / 256)

/-- The number whose bytes these are, the least first. -/
def leValue : List UInt8 → Nat
  | []      => 0
  | b :: bs => b.toNat + 256 * leValue bs

@[simp] theorem leBytes_length (w v : Nat) : (leBytes w v).length = w := by
  induction w generalizing v with
  | zero => rfl
  | succ w ih => rw [leBytes, List.length_cons, ih]

/-- **Round trip.** -/
theorem leValue_leBytes (w v : Nat) : leValue (leBytes w v) = v % 256 ^ w := by
  induction w generalizing v with
  | zero => rw [leBytes, leValue, Nat.pow_zero, Nat.mod_one]
  | succ w ih =>
    have hlow : (UInt8.ofNat v).toNat = v % 256 := UInt8.toNat_ofNat'
    rw [leBytes, leValue, ih, hlow, Nat.pow_succ, Nat.mul_comm (256 ^ w), Nat.mod_mul]

theorem leValue_leBytes_of_lt {w v : Nat} (h : v < 256 ^ w) : leValue (leBytes w v) = v := by
  rw [leValue_leBytes, Nat.mod_eq_of_lt h]

theorem leValue_lt (bs : List UInt8) : leValue bs < 256 ^ bs.length := by
  induction bs with
  | nil => exact Nat.one_pos
  | cons b bs ih =>
    have hb := b.toNat_lt
    rw [leValue, List.length_cons, Nat.pow_succ]
    omega

/-- A property of every byte, checked on the numbers below 256. -/
theorem forall_uint8 {p : UInt8 → Prop} (h : ∀ n < 256, p (UInt8.ofNat n)) (b : UInt8) : p b := by
  have hb := h b.toNat b.toNat_lt
  rwa [UInt8.ofNat_toNat] at hb

/-! ### Replacing part of a list -/

variable {α : Type*}

/-- The list with `bs` in the place of the elements from `off` on. -/
def splice (l : List α) (off : Nat) (bs : List α) : List α :=
  l.take off ++ bs ++ l.drop (off + bs.length)

theorem splice_length {l : List α} {off : Nat} {bs : List α} (h : off + bs.length ≤ l.length) :
    (splice l off bs).length = l.length := by
  rw [splice, List.length_append, List.length_append, List.length_take, List.length_drop]
  omega

theorem splice_nil (l : List α) (off : Nat) : splice l off [] = l := by
  rw [splice, List.append_nil, List.length_nil, Nat.add_zero, List.take_append_drop]

/-- Inside the replaced part. -/
theorem getElem?_splice_of_lt {l : List α} {off : Nat} {bs : List α} (h : off ≤ l.length) {i : Nat}
    (hi : i < bs.length) : (splice l off bs)[off + i]? = bs[i]? := by
  have htake : (l.take off).length = off := by rw [List.length_take]; omega
  rw [splice, List.append_assoc, List.getElem?_append_right (by omega), htake,
    Nat.add_sub_cancel_left, List.getElem?_append_left hi]

/-- Outside the replaced part. -/
theorem getElem?_splice_of_not_mem {l : List α} {off : Nat} {bs : List α} (h : off ≤ l.length)
    {i : Nat} (hi : i < off ∨ off + bs.length ≤ i) : (splice l off bs)[i]? = l[i]? := by
  have htake : (l.take off).length = off := by rw [List.length_take]; omega
  rw [splice]
  obtain hi | hi := hi
  · rw [List.append_assoc, List.getElem?_append_left (by omega), List.getElem?_take_of_lt hi]
  · have hlen : (l.take off ++ bs).length = off + bs.length := by
      rw [List.length_append, htake]
    rw [List.getElem?_append_right (by omega), hlen, List.getElem?_drop]
    congr 1
    omega

/-! ### Spans of buffers -/

/-- `len` bytes from `off` on in the buffer `buf`. -/
structure Span (ι : Type*) where
  buf : ι
  off : Nat
  len : Nat

namespace Span

variable {ι : Type*}

/-- The span lies in its buffer. -/
def Fits (s : Span ι) (m : ι → List UInt8) : Prop := s.off + s.len ≤ (m s.buf).length

instance (s : Span ι) (m : ι → List UInt8) : Decidable (s.Fits m) :=
  inferInstanceAs (Decidable (_ ≤ _))

/-- The bytes of the span. -/
def read (s : Span ι) (m : ι → List UInt8) : List UInt8 := ((m s.buf).drop s.off).take s.len

/-- The buffers after bytes are written to the start of the span. -/
def write [DecidableEq ι] (s : Span ι) (m : ι → List UInt8) (bs : List UInt8) : ι → List UInt8 :=
  Function.update m s.buf (splice (m s.buf) s.off bs)

/-- No byte is in both. -/
def Disjoint (s t : Span ι) : Prop :=
  s.buf ≠ t.buf ∨ s.off + s.len ≤ t.off ∨ t.off + t.len ≤ s.off

theorem Disjoint.symm {s t : Span ι} (h : s.Disjoint t) : t.Disjoint s := by
  obtain h | h | h := h
  · exact Or.inl h.symm
  · exact Or.inr (Or.inr h)
  · exact Or.inr (Or.inl h)

theorem read_length {s : Span ι} {m : ι → List UInt8} (h : s.Fits m) :
    (s.read m).length = s.len := by
  unfold Fits at h
  rw [read, List.length_take, List.length_drop]
  omega

theorem getElem?_read (s : Span ι) (m : ι → List UInt8) (i : Nat) :
    (s.read m)[i]? = if i < s.len then (m s.buf)[s.off + i]? else none := by
  rw [read, List.getElem?_take, List.getElem?_drop]

variable [DecidableEq ι] {s t : Span ι} {m : ι → List UInt8} {bs : List UInt8}

@[simp] theorem write_self (s : Span ι) (m : ι → List UInt8) (bs : List UInt8) :
    s.write m bs s.buf = splice (m s.buf) s.off bs := Function.update_self ..

theorem write_of_ne {b : ι} (h : b ≠ s.buf) : s.write m bs b = m b := Function.update_of_ne h _ _

/-- A write keeps the size of every buffer. -/
theorem write_length (hs : s.Fits m) (hbs : bs.length ≤ s.len) (b : ι) :
    (s.write m bs b).length = (m b).length := by
  unfold Fits at hs
  by_cases hb : b = s.buf
  · subst hb
    rw [write_self, splice_length (by omega)]
  · rw [write_of_ne hb]

theorem Fits.write (ht : t.Fits m) (hs : s.Fits m) (hbs : bs.length ≤ s.len) :
    t.Fits (s.write m bs) := by
  unfold Fits
  rw [write_length hs hbs]
  exact ht

/-- **Reading what was written.** -/
theorem read_write (hs : s.Fits m) (hbs : bs.length = s.len) : s.read (s.write m bs) = bs := by
  unfold Fits at hs
  refine List.ext_getElem? fun i => ?_
  rw [getElem?_read, write_self]
  by_cases hi : i < s.len
  · rw [if_pos hi, getElem?_splice_of_lt (by omega) (by omega)]
  · rw [if_neg hi, List.getElem?_eq_none (by omega)]

/-- **Frame.** A write elsewhere is not seen. -/
theorem read_write_of_disjoint (hs : s.Fits m) (hbs : bs.length ≤ s.len) (h : s.Disjoint t) :
    t.read (s.write m bs) = t.read m := by
  unfold Fits at hs
  refine List.ext_getElem? fun i => ?_
  rw [getElem?_read, getElem?_read]
  by_cases hi : i < t.len
  · rw [if_pos hi, if_pos hi]
    by_cases hb : t.buf = s.buf
    · rw [hb, write_self, getElem?_splice_of_not_mem (by omega)]
      obtain h | h := h
      · exact absurd hb.symm h
      · omega
    · rw [write_of_ne hb]
  · rw [if_neg hi, if_neg hi]

end Span

/-! ### A span in chunks -/

namespace Span

variable {ι : Type*}

/-- The span cut into chunks of at most `cap` bytes. -/
def pieces (cap : Nat) (b : ι) (off n : Nat) : List (Span ι) :=
  if n = 0 ∨ cap = 0 then []
  else ⟨b, off, min cap n⟩ :: pieces cap b (off + min cap n) (n - min cap n)
termination_by n

/-- Every chunk lies in the span. -/
theorem pieces_sub {cap : Nat} {b : ι} {off n : Nat} {p : Span ι}
    (hp : p ∈ pieces cap b off n) : p.buf = b ∧ off ≤ p.off ∧ p.off + p.len ≤ off + n := by
  fun_induction pieces cap b off n with
  | case1 => exact absurd hp List.not_mem_nil
  | case2 off n h ih =>
    obtain rfl | hp := List.mem_cons.mp hp
    · exact ⟨rfl, Nat.le_refl _, by dsimp only; omega⟩
    · obtain ⟨hb, hl, hr⟩ := ih hp
      exact ⟨hb, by omega, by omega⟩

/-- The chunks are disjoint. -/
theorem pieces_pairwise (cap : Nat) (b : ι) (off n : Nat) :
    (pieces cap b off n).Pairwise Disjoint := by
  fun_induction pieces cap b off n with
  | case1 => exact List.Pairwise.nil
  | case2 off n h ih =>
    refine List.pairwise_cons.mpr ⟨fun p hp => ?_, ih⟩
    obtain ⟨-, hl, -⟩ := pieces_sub hp
    exact Or.inr (Or.inl hl)

/-- **The chunks of a span hold its bytes.** -/
theorem flatMap_read_pieces {cap : Nat} (hcap : 0 < cap) (m : ι → List UInt8) (b : ι)
    (off n : Nat) : (pieces cap b off n).flatMap (·.read m) = (⟨b, off, n⟩ : Span ι).read m := by
  fun_induction pieces cap b off n with
  | case1 off n h =>
    obtain rfl : n = 0 := by omega
    rw [read, List.take_zero, List.flatMap_nil]
  | case2 off n h ih =>
    rw [List.flatMap_cons, ih]
    simp only [read]
    rw [← List.drop_drop, ← List.take_add]
    congr 1
    omega

theorem sum_len_pieces {cap : Nat} (hcap : 0 < cap) (b : ι) (off n : Nat) :
    ((pieces cap b off n).map len).sum = n := by
  fun_induction pieces cap b off n with
  | case1 off n h =>
    obtain rfl : n = 0 := by omega
    rfl
  | case2 off n h ih =>
    rw [List.map_cons, List.sum_cons, ih]
    dsimp only
    omega

end Span

/-! ### Several writes -/

variable {ι : Type*}

/-- Consecutive bytes of a list for consecutive spans. -/
def assign : List (Span ι) → List UInt8 → List (Span ι × List UInt8)
  | [], _         => []
  | s :: ss, data => (s, data.take s.len) :: assign ss (data.drop s.len)

theorem assign_fst (ss : List (Span ι)) (data : List UInt8) :
    (assign ss data).map Prod.fst = ss := by
  induction ss generalizing data with
  | nil => rfl
  | cons s ss ih => rw [assign, List.map_cons, ih]

/-- The bytes of the spans, one after the other, are the list again. -/
theorem flatMap_snd_assign {ss : List (Span ι)} {data : List UInt8}
    (hlen : data.length = (ss.map Span.len).sum) : (assign ss data).flatMap Prod.snd = data := by
  induction ss generalizing data with
  | nil => exact (List.eq_nil_of_length_eq_zero hlen).symm
  | cons s ss ih =>
    rw [List.map_cons, List.sum_cons] at hlen
    rw [assign, List.flatMap_cons, ih (by rw [List.length_drop]; omega), List.take_append_drop]

/-- Every write is of a whole span that lies in its buffer. -/
def FitsAll (m : ι → List UInt8) (ws : List (Span ι × List UInt8)) : Prop :=
  ∀ w ∈ ws, w.1.Fits m ∧ w.2.length = w.1.len

theorem fitsAll_assign {m : ι → List UInt8} {ss : List (Span ι)} {data : List UInt8}
    (hfit : ∀ s ∈ ss, s.Fits m) (hlen : (ss.map Span.len).sum ≤ data.length) :
    FitsAll m (assign ss data) := by
  induction ss generalizing data with
  | nil => exact fun w hw => absurd hw List.not_mem_nil
  | cons s ss ih =>
    rw [List.map_cons, List.sum_cons] at hlen
    have hrest := @ih (data.drop s.len) (fun t ht => hfit t (List.mem_cons_of_mem _ ht))
      (by rw [List.length_drop]; omega)
    intro w hw
    obtain rfl | hw := List.mem_cons.mp hw
    · have htake : (data.take s.len).length = s.len := by rw [List.length_take]; omega
      exact ⟨hfit s List.mem_cons_self, htake⟩
    · exact hrest w hw

/-- The spans for which `n` bytes are enough. -/
def within : List (Span ι) → Nat → List (Span ι)
  | [], _      => []
  | s :: ss, n => if s.len ≤ n then s :: within ss (n - s.len) else []

theorem within_eq_self {ss : List (Span ι)} {n : Nat} (h : (ss.map Span.len).sum ≤ n) :
    within ss n = ss := by
  induction ss generalizing n with
  | nil => rfl
  | cons s ss ih =>
    rw [List.map_cons, List.sum_cons] at h
    rw [within, if_pos (by omega), ih (by omega)]

theorem within_initial (ss : List (Span ι)) (n : Nat) : within ss n <+: ss := by
  induction ss generalizing n with
  | nil => exact List.prefix_rfl
  | cons s ss ih =>
    rw [within]
    split
    · exact List.prefix_cons_inj s |>.mpr (ih _)
    · exact List.nil_prefix

theorem sum_len_within (ss : List (Span ι)) (n : Nat) : ((within ss n).map Span.len).sum ≤ n := by
  induction ss generalizing n with
  | nil => exact Nat.zero_le n
  | cons s ss ih =>
    rw [within]
    split
    · have hrest := ih (n - s.len)
      rw [List.map_cons, List.sum_cons]
      omega
    · exact Nat.zero_le n

/-- Cutting disjoint spans into chunks keeps them disjoint. -/
theorem pairwise_flatMap_pieces {cap : Nat} {ss : List (Span ι)} (h : ss.Pairwise Span.Disjoint) :
    (ss.flatMap fun s => Span.pieces cap s.buf s.off s.len).Pairwise Span.Disjoint := by
  refine List.pairwise_flatMap.mpr ⟨fun s _ => Span.pieces_pairwise .., h.imp fun {s t} hst => ?_⟩
  intro p hp q hq
  obtain ⟨hpb, hpl, hpr⟩ := Span.pieces_sub hp
  obtain ⟨hqb, hql, hqr⟩ := Span.pieces_sub hq
  obtain h | h | h := hst
  · exact Or.inl (by rw [hpb, hqb]; exact h)
  · exact Or.inr (Or.inl (by omega))
  · exact Or.inr (Or.inr (by omega))

variable [DecidableEq ι]

/-- The writes one after the other. -/
def writeAll (m : ι → List UInt8) (ws : List (Span ι × List UInt8)) : ι → List UInt8 :=
  ws.foldl (fun m w => w.1.write m w.2) m

theorem FitsAll.tail {m : ι → List UInt8} {w : Span ι × List UInt8}
    {ws : List (Span ι × List UInt8)} (h : FitsAll m (w :: ws)) :
    FitsAll (w.1.write m w.2) ws := by
  obtain ⟨hw, hlen⟩ := h w List.mem_cons_self
  intro v hv
  obtain ⟨hvm, hvl⟩ := h v (List.mem_cons_of_mem _ hv)
  exact ⟨hvm.write hw (Nat.le_of_eq hlen), hvl⟩

theorem writeAll_length {m : ι → List UInt8} {ws : List (Span ι × List UInt8)}
    (h : FitsAll m ws) (b : ι) : (writeAll m ws b).length = (m b).length := by
  induction ws generalizing m with
  | nil => rfl
  | cons w ws ih =>
    obtain ⟨hw, hlen⟩ := h w List.mem_cons_self
    exact (ih h.tail).trans (Span.write_length hw (Nat.le_of_eq hlen) b)

/-- A span apart from all of them keeps its bytes. -/
theorem read_writeAll_of_disjoint {m : ι → List UInt8} {ws : List (Span ι × List UInt8)}
    (h : FitsAll m ws) {t : Span ι} (ht : ∀ w ∈ ws, w.1.Disjoint t) :
    t.read (writeAll m ws) = t.read m := by
  induction ws generalizing m with
  | nil => rfl
  | cons w ws ih =>
    obtain ⟨hw, hlen⟩ := h w List.mem_cons_self
    have hrest := ih h.tail fun v hv => ht v (List.mem_cons_of_mem _ hv)
    exact hrest.trans (Span.read_write_of_disjoint hw (Nat.le_of_eq hlen) (ht w List.mem_cons_self))

/-- **Reading one of several disjoint writes back.** -/
theorem read_writeAll {m : ι → List UInt8} {ws : List (Span ι × List UInt8)} (h : FitsAll m ws)
    (hdis : ws.Pairwise fun v w => v.1.Disjoint w.1) {w : Span ι × List UInt8} (hw : w ∈ ws) :
    w.1.read (writeAll m ws) = w.2 := by
  induction ws generalizing m with
  | nil => exact absurd hw List.not_mem_nil
  | cons v ws ih =>
    obtain ⟨hv, hlen⟩ := h v List.mem_cons_self
    obtain ⟨hhead, htail⟩ := List.pairwise_cons.mp hdis
    obtain rfl | hw := List.mem_cons.mp hw
    -- written first: the others are apart from it
    · have hkeep := read_writeAll_of_disjoint h.tail fun u hu => (hhead u hu).symm
      exact hkeep.trans (Span.read_write hv hlen)
    · exact ih h.tail htail hw

omit [DecidableEq ι] in
/-- Only the bytes for the spans matter. -/
theorem assign_append (ss : List (Span ι)) {data rest : List UInt8}
    (hlen : (ss.map Span.len).sum ≤ data.length) : assign ss (data ++ rest) = assign ss data := by
  induction ss generalizing data with
  | nil => rfl
  | cons s ss ih =>
    rw [List.map_cons, List.sum_cons] at hlen
    rw [assign, assign, List.take_append_of_le_length (by omega),
      List.drop_append_of_le_length (by omega), ih (by rw [List.length_drop]; omega)]

/-- **Reading back.** Disjoint spans written with consecutive bytes hold them. -/
theorem flatMap_read_writeAll_assign {m : ι → List UInt8} {ss : List (Span ι)} {data : List UInt8}
    (hfit : ∀ s ∈ ss, s.Fits m) (hdis : ss.Pairwise Span.Disjoint)
    (hlen : data.length = (ss.map Span.len).sum) :
    ss.flatMap (·.read (writeAll m (assign ss data))) = data := by
  have hall : FitsAll m (assign ss data) := fitsAll_assign hfit (Nat.le_of_eq hlen.symm)
  have hpair : (assign ss data).Pairwise fun v w => v.1.Disjoint w.1 := by
    rw [← List.pairwise_map, assign_fst]
    exact hdis
  calc ss.flatMap (·.read (writeAll m (assign ss data)))
      = ((assign ss data).map Prod.fst).flatMap (·.read (writeAll m (assign ss data))) := by
        rw [assign_fst]
    _ = (assign ss data).flatMap fun w => w.1.read (writeAll m (assign ss data)) :=
        List.flatMap_map ..
    _ = (assign ss data).flatMap Prod.snd :=
        List.flatMap_congr fun w hw => read_writeAll hall hpair hw
    _ = data := flatMap_snd_assign hlen

/-! ### Writes that change nothing -/

/-- The write changes none of the first `keep` bytes of its buffer. -/
def Span.Keeps (keep : ι → Nat) (m : ι → List UInt8) (w : Span ι × List UInt8) : Prop :=
  ∀ i < w.2.length, w.1.off + i < keep w.1.buf → (m w.1.buf)[w.1.off + i]? = w.2[i]?

omit [DecidableEq ι] in
theorem Span.Keeps.congr {keep : ι → Nat} {m m' : ι → List UInt8} {w : Span ι × List UInt8}
    (h : (m' w.1.buf).take (keep w.1.buf) = (m w.1.buf).take (keep w.1.buf)) :
    Span.Keeps keep m' w ↔ Span.Keeps keep m w := by
  unfold Span.Keeps
  refine forall_congr' fun i => forall_congr' fun _ => forall_congr' fun hk => ?_
  rw [← List.getElem?_take_of_lt hk, h, List.getElem?_take_of_lt hk]

theorem Span.Keeps.write {keep : ι → Nat} {m : ι → List UInt8} {w : Span ι × List UInt8}
    (hfit : w.1.Fits m) (h : Span.Keeps keep m w) (b : ι) :
    (w.1.write m w.2 b).take (keep b) = (m b).take (keep b) := by
  unfold Span.Fits at hfit
  by_cases hb : b = w.1.buf
  · subst hb
    refine List.ext_getElem? fun i => ?_
    rw [Span.write_self]
    by_cases hi : i < keep w.1.buf
    · rw [List.getElem?_take_of_lt hi, List.getElem?_take_of_lt hi]
      by_cases hin : w.1.off ≤ i ∧ i < w.1.off + w.2.length
      · obtain ⟨j, rfl⟩ := Nat.exists_eq_add_of_le hin.1
        have hj : j < w.2.length := by omega
        rw [getElem?_splice_of_lt (by omega) hj]
        exact (h j hj hi).symm
      · rw [getElem?_splice_of_not_mem (by omega) (by omega)]
    · rw [List.getElem?_take_eq_none (by omega), List.getElem?_take_eq_none (by omega)]
  · rw [Span.write_of_ne hb]

/-- Buffers that are not written. -/
theorem writeAll_of_ne {m : ι → List UInt8} {ws : List (Span ι × List UInt8)} {b : ι}
    (h : ∀ w ∈ ws, b ≠ w.1.buf) : writeAll m ws b = m b := by
  induction ws generalizing m with
  | nil => rfl
  | cons w ws ih =>
    exact (ih fun v hv => h v (List.mem_cons_of_mem _ hv)).trans
      (Span.write_of_ne (h w List.mem_cons_self))

/-- **Disjoint writes keep** some bytes of every buffer exactly when each of them does. -/
theorem take_writeAll_iff {keep : ι → Nat} {m : ι → List UInt8} {ws : List (Span ι × List UInt8)}
    (h : FitsAll m ws) (hdis : ws.Pairwise fun v w => v.1.Disjoint w.1) :
    (∀ b, (writeAll m ws b).take (keep b) = (m b).take (keep b)) ↔
      ∀ w ∈ ws, Span.Keeps keep m w := by
  constructor
  · intro hall w hw i hi hk
    have hread := read_writeAll h hdis hw
    have hlen := (h w hw).2
    -- what was written is there, and what is there is what was there before
    have hget := Span.getElem?_read w.1 (writeAll m ws) i
    rw [hread, if_pos (by omega)] at hget
    rw [hget, ← List.getElem?_take_of_lt hk, ← hall, List.getElem?_take_of_lt hk]
  · intro hall
    clear hdis
    induction ws generalizing m with
    | nil => exact fun b => rfl
    | cons w ws ih =>
      have hw := (h w List.mem_cons_self).1
      have hone := fun b => (hall w List.mem_cons_self).write hw b
      have hrest := ih h.tail fun v hv =>
        (Span.Keeps.congr (hone _)).mpr (hall v (List.mem_cons_of_mem _ hv))
      exact fun b => (hrest b).trans (hone b)

end DS4.Lib
