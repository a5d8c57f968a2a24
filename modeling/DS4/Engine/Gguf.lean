import DS4.Lib.Bytes
import DS4.Lib.Checked
import DS4.Server.Text

namespace DS4.Engine.Gguf

/-!
# The directory of a GGUF file

The loader maps the file, walks over its metadata and its tensor directory, and keeps where the bytes of each tensor
are.  Whatever it does not accept ends the program with a message.

* `cursorString`, `skipValue` — reading at a position; arrays nest at most eight deep.
* `tensorNbytes` — how many bytes a tensor takes.
* `parseMetadata`, `parseTensors`, `modelOpen` — the passes over the file.
* `Tensor.Sound` — the size is the one of the type, and the bytes are in the file.
* `gguf_directory_sound` — where the code's table knows the type and nothing wraps, every tensor is sound.
-/

open DS4.Lib (leBytes leBytes_length leValue leValue_lt alignUp)
open DS4.Server (Bytes lit)

/-- The file, mapped; `st_size` is a signed 64-bit number. -/
structure GgufFile where
  bytes : Bytes
  size_lt : bytes.length < 0x8000000000000000

def GgufFile.size (m : GgufFile) : Nat := m.bytes.length

variable {m : GgufFile} {σ α β : Type}

/-! ### The cursor -/

/-- `cursor_error` -/
def cursorError (msg : String) (pos : Nat) : Except String α := .error (msg ++ " at byte " ++ toString pos)

/-- `cursor_has`, before `n` bytes are used. -/
def cursorHas (m : GgufFile) (pos n : Nat) : Except String Unit :=
  if n > m.size ∨ pos > m.size - n then cursorError "truncated GGUF file" pos else .ok ()

/-- `cursor_skip` -/
def cursorSkip (m : GgufFile) (pos n : Nat) : Except String Nat := do
  cursorHas m pos n
  return pos + n

/-- `cursor_read` of a number of `n` bytes. -/
def cursorRead (m : GgufFile) (pos n : Nat) : Except String (Nat × Nat) := do
  cursorHas m pos n
  return (leValue ((m.bytes.drop pos).take n), pos + n)

/-- `cursor_u32` -/
def cursorU32 (m : GgufFile) (pos : Nat) : Except String (Nat × Nat) := cursorRead m pos 4

/-- `cursor_u64` -/
def cursorU64 (m : GgufFile) (pos : Nat) : Except String (Nat × Nat) := cursorRead m pos 8

/-- `cursor_string` -/
def cursorString (m : GgufFile) (pos : Nat) : Except String (Bytes × Nat) := do
  let (len, pos) ← cursorU64 m pos
  cursorHas m pos len
  return ((m.bytes.drop pos).take len, pos + len)

/-- `for (i = 0; i < n; i++)`, with a body that may fail. -/
def turns (body : σ → Except String σ) : Nat → σ → Except String σ
  | 0, s     => .ok s
  | n + 1, s => do turns body n (← body s)

/-! ### Values -/

def GGUF_VALUE_UINT32 : Nat := 4
def GGUF_VALUE_STRING : Nat := 8
def GGUF_VALUE_ARRAY : Nat := 9

/-- `scalar_value_size` -/
def scalarValueSize (type : Nat) : Nat :=
  match type with
  | 0 | 1 | 7    => 1
  | 2 | 3        => 2
  | 4 | 5 | 6    => 4
  | 10 | 11 | 12 => 8
  | _            => 0

def UINT64_MAX : Nat := 0xffffffffffffffff

/-- `skip_value`; `levels` is how many levels are left of `depth <= 8`. -/
def skipValue (m : GgufFile) : Nat → Nat → Nat → Except String Nat
  | 0, _, pos => cursorError "metadata array nesting is too deep" pos
  | levels + 1, type, pos =>
    let scalar := scalarValueSize type
    if scalar ≠ 0 then cursorSkip m pos scalar
    else if type = GGUF_VALUE_STRING then do return (← cursorString m pos).2
    else if type = GGUF_VALUE_ARRAY then do
      let (itemType, pos) ← cursorU32 m pos
      let (len, pos) ← cursorU64 m pos
      let itemSize := scalarValueSize itemType
      if itemSize ≠ 0 then
        if len > UINT64_MAX / itemSize then cursorError "metadata array is too large" pos
        else cursorSkip m pos (len * itemSize)
      else turns (skipValue m levels itemType) len pos
    else cursorError "unknown GGUF metadata type" pos

/-! ### Types -/

/-- `gguf_type_info`, without the name. -/
structure TypeInfo where
  blockElems : Nat
  blockBytes : Nat
  deriving DecidableEq

/-- `tensor_type`, with the table `gguf_types` -/
def tensorType (type : Nat) : Option TypeInfo :=
  match type with
  | 0  => some ⟨1, 4⟩
  | 1  => some ⟨1, 2⟩
  | 2  => some ⟨32, 18⟩
  | 3  => some ⟨32, 20⟩
  | 6  => some ⟨32, 22⟩
  | 7  => some ⟨32, 24⟩
  | 8  => some ⟨32, 34⟩
  | 9  => some ⟨32, 40⟩
  | 10 => some ⟨256, 84⟩
  | 11 => some ⟨256, 110⟩
  | 12 => some ⟨256, 144⟩
  | 13 => some ⟨256, 176⟩
  | 14 => some ⟨256, 210⟩
  | 15 => some ⟨256, 292⟩
  | 16 => some ⟨256, 66⟩
  | 17 => some ⟨256, 74⟩
  | 18 => some ⟨256, 98⟩
  | 19 => some ⟨256, 110⟩
  | 20 => some ⟨256, 50⟩
  | 21 => some ⟨256, 110⟩
  | 22 => some ⟨256, 82⟩
  | 23 => some ⟨256, 136⟩
  | 24 => some ⟨1, 1⟩
  | 25 => some ⟨1, 2⟩
  | 26 => some ⟨1, 4⟩
  | 27 => some ⟨1, 8⟩
  | 28 => some ⟨1, 8⟩
  | 29 => some ⟨256, 56⟩
  | 30 => some ⟨1, 2⟩
  | 39 => some ⟨32, 17⟩
  | _  => none

/-- `ds4q_type_traits`, the same table where tensors are written. -/
def ds4qTypeTraits (type : Nat) : Option TypeInfo :=
  match type with
  | 0  => some ⟨1, 4⟩
  | 1  => some ⟨1, 2⟩
  | 2  => some ⟨32, 18⟩
  | 3  => some ⟨32, 20⟩
  | 6  => some ⟨32, 22⟩
  | 7  => some ⟨32, 24⟩
  | 8  => some ⟨32, 34⟩
  | 9  => some ⟨32, 36⟩
  | 10 => some ⟨256, 84⟩
  | 11 => some ⟨256, 110⟩
  | 12 => some ⟨256, 144⟩
  | 13 => some ⟨256, 176⟩
  | 14 => some ⟨256, 210⟩
  | 15 => some ⟨256, 292⟩
  | 16 => some ⟨256, 66⟩
  | 17 => some ⟨256, 74⟩
  | 18 => some ⟨256, 98⟩
  | 19 => some ⟨256, 50⟩
  | 20 => some ⟨32, 18⟩
  | 21 => some ⟨256, 110⟩
  | 22 => some ⟨256, 82⟩
  | 23 => some ⟨256, 136⟩
  | 24 => some ⟨1, 1⟩
  | 25 => some ⟨1, 2⟩
  | 26 => some ⟨1, 4⟩
  | 27 => some ⟨1, 8⟩
  | 28 => some ⟨1, 8⟩
  | 29 => some ⟨256, 56⟩
  | 30 => some ⟨1, 2⟩
  | 34 => some ⟨256, 54⟩
  | 35 => some ⟨256, 66⟩
  | 39 => some ⟨32, 17⟩
  | 40 => some ⟨64, 36⟩
  | 41 => some ⟨128, 18⟩
  | _  => none

/-- `tensor_nbytes` -/
def tensorNbytes (type elements : Nat) : Option Nat :=
  match tensorType type with
  | none      => none
  | some info =>
    let blocks := (elements + info.blockElems - 1) % (UINT64_MAX + 1) / info.blockElems
    if blocks > UINT64_MAX / info.blockBytes then none else some (blocks * info.blockBytes)

/-! ### The metadata -/

/-- `ds4_kv` -/
structure Kv where
  key : Bytes
  type : Nat
  valuePos : Nat
  deriving DecidableEq

/-- Where the loop over the metadata stands. -/
structure MetaState where
  kv : List Kv
  alignment : Nat
  pos : Nat

/-- One turn of `parse_metadata`. -/
def parseKv (m : GgufFile) (st : MetaState) : Except String MetaState := do
  let (key, pos) ← cursorString m st.pos
  let (type, pos) ← cursorU32 m pos
  let alignment :=
    if key = lit "general.alignment" ∧ type = GGUF_VALUE_UINT32 then
      match cursorU32 m pos with
      | .ok (alignment, _) => if alignment ≠ 0 then alignment else st.alignment
      | .error _           => st.alignment
    else st.alignment
  let next ← skipValue m 9 type pos
  return ⟨st.kv ++ [⟨key, type, pos⟩], alignment, next⟩

/-- Is there memory for a table of so many entries? -/
structure Memory where
  kvTable : Nat → Bool
  tensorTable : Nat → Bool

/-- `parse_metadata` -/
def parseMetadata (mem : Memory) (m : GgufFile) (nKv pos : Nat) : Except String MetaState :=
  if ¬ mem.kvTable nKv then .error "out of memory while allocating metadata table"
  else turns (parseKv m) nKv ⟨[], 32, pos⟩

/-! ### The tensors -/

def DS4_MAX_DIMS : Nat := 8

/-- `ds4_tensor`, with `ndim` as the length of `dim`. -/
structure Tensor where
  name : Bytes
  dim : List Nat
  type : Nat
  relOffset : Nat
  absOffset : Nat
  elements : Nat
  bytes : Nat
  deriving DecidableEq

/-- Where the loop over the dimensions stands. -/
structure DimState where
  dim : List Nat
  elements : Nat
  pos : Nat

/-- One turn of the loop over the dimensions. -/
def parseDim (m : GgufFile) (st : DimState) : Except String DimState := do
  let (d, pos) ← cursorU64 m st.pos
  if d ≠ 0 ∧ st.elements > UINT64_MAX / d then .error "tensor element count overflow"
  else return ⟨st.dim ++ [d], st.elements * d, pos⟩

/-- One turn of the first loop of `parse_tensors`.  A type without a size only gives a warning, and the tensor keeps
    the size 0 it was allocated with. -/
def parseTensor (m : GgufFile) (st : List Tensor × Nat) : Except String (List Tensor × Nat) := do
  let (name, pos) ← cursorString m st.2
  let (ndim, pos) ← cursorU32 m pos
  if ndim = 0 ∨ ndim > DS4_MAX_DIMS then .error "tensor has an unsupported number of dimensions"
  else do
    let dims ← turns (parseDim m) ndim ⟨[], 1, pos⟩
    let (type, pos) ← cursorU32 m dims.pos
    let (relOffset, pos) ← cursorU64 m pos
    let bytes := (tensorNbytes type dims.elements).getD 0
    return (st.1 ++ [⟨name, dims.dim, type, relOffset, 0, dims.elements, bytes⟩], pos)

/-- One turn of the second loop. -/
def placeTensor (m : GgufFile) (tensorDataPos : Nat) (t : Tensor) : Except String Tensor :=
  if t.relOffset > UINT64_MAX - tensorDataPos then .error "tensor offset overflow"
  else
    let absOffset := tensorDataPos + t.relOffset
    if t.bytes ≠ 0 ∧ (absOffset > m.size ∨ t.bytes > m.size - absOffset) then .error "tensor points outside GGUF file"
    else .ok { t with absOffset := absOffset }

/-- `ds4_model`, as far as the file says. -/
structure Model where
  kv : List Kv
  alignment : Nat
  tensorDataPos : Nat
  tensors : List Tensor
  deriving DecidableEq

/-- `parse_tensors` -/
def parseTensors (mem : Memory) (m : GgufFile) (nTensors : Nat) (st : MetaState) : Except String Model :=
  if ¬ mem.tensorTable nTensors then .error "out of memory while allocating tensor table"
  else do
    let (tensors, pos) ← turns (parseTensor m) nTensors ([], st.pos)
    let tensorDataPos := (alignUp (UInt64.ofNat pos) (UInt64.ofNat st.alignment)).toNat
    let placed ← tensors.mapM (placeTensor m tensorDataPos)
    return ⟨st.kv, st.alignment, tensorDataPos, placed⟩

def DS4_GGUF_MAGIC : Nat := 0x46554747

/-- `model_open`, once the file is mapped. -/
def modelOpen (mem : Memory) (m : GgufFile) : Except String Model :=
  if m.size < 32 then .error "model file is too small to be GGUF"
  else do
    let (magic, pos) ← cursorU32 m 0
    if magic ≠ DS4_GGUF_MAGIC then .error "model is not a GGUF file"
    else do
      let (version, pos) ← cursorU32 m pos
      let (nTensors, pos) ← cursorU64 m pos
      let (nKv, pos) ← cursorU64 m pos
      if version ≠ 3 then .error "only GGUF v3 is supported"
      else do
        let st ← parseMetadata mem m nKv pos
        parseTensors mem m nTensors st

/-! ### What a successful step has read -/

theorem bind_ok {x : Except String α} {f : α → Except String β} {r : β} :
    (x >>= f) = .ok r ↔ ∃ a, x = .ok a ∧ f a = .ok r := by
  cases x with
  | error e => exact ⟨nofun, nofun⟩
  | ok a => exact ⟨fun h => ⟨a, rfl, h⟩, fun ⟨_, ha, h⟩ => (Except.ok.inj ha) ▸ h⟩

/-- A loop whose turns keep a property and move on. -/
theorem turns_ok {body : σ → Except String σ} {P : σ → Prop} {w : σ → Nat}
    (step : ∀ s s', P s → body s = .ok s' → P s' ∧ w s < w s') {n : Nat} {s s' : σ} (hs : P s)
    (h : turns body n s = .ok s') : P s' ∧ w s + n ≤ w s' := by
  induction n generalizing s with
  | zero =>
    rw [← Except.ok.inj h]
    exact ⟨hs, Nat.le_refl _⟩
  | succ n ih =>
    obtain ⟨t, ht, hrest⟩ := (bind_ok).1 h
    obtain ⟨hP, hpos⟩ := step s t hs ht
    obtain ⟨hP', hpos'⟩ := ih hP hrest
    exact ⟨hP', by omega⟩

theorem cursorHas_ok {pos n : Nat} {u : Unit} (h : cursorHas m pos n = .ok u) : pos + n ≤ m.size := by
  unfold cursorHas at h
  split_ifs at h with hc
  · nomatch h
  · omega

theorem cursorSkip_ok {pos n p : Nat} (h : cursorSkip m pos n = .ok p) : p = pos + n ∧ p ≤ m.size := by
  obtain ⟨_, hhas, hp⟩ := (bind_ok).1 h
  have heq : pos + n = p := Except.ok.inj hp
  exact ⟨heq.symm, heq ▸ cursorHas_ok hhas⟩

theorem cursorRead_ok {pos n v p : Nat} (h : cursorRead m pos n = .ok (v, p)) :
    p = pos + n ∧ p ≤ m.size ∧ v < 256 ^ n := by
  obtain ⟨_, hhas, hp⟩ := (bind_ok).1 h
  have hle := cursorHas_ok hhas
  obtain ⟨hv, heq⟩ : leValue ((m.bytes.drop pos).take n) = v ∧ pos + n = p := Prod.mk.inj (Except.ok.inj hp)
  refine ⟨heq.symm, heq ▸ hle, ?_⟩
  have hlen : ((m.bytes.drop pos).take n).length = n := by
    have hsize : m.size = m.bytes.length := rfl
    rw [List.length_take, List.length_drop]
    omega
  have hlt := leValue_lt ((m.bytes.drop pos).take n)
  rwa [hlen, hv] at hlt

theorem cursorString_ok {pos p : Nat} {s : Bytes} (h : cursorString m pos = .ok (s, p)) : pos < p ∧ p ≤ m.size := by
  obtain ⟨⟨len, q⟩, hlen, hrest⟩ := (bind_ok).1 h
  obtain ⟨_, hhas, hp⟩ := (bind_ok).1 hrest
  obtain ⟨hq, -, -⟩ := cursorRead_ok hlen
  have heq : q + len = p := congrArg Prod.snd (Except.ok.inj hp)
  have hle := cursorHas_ok hhas
  omega

/-- **Skipping a value** moves on inside the file: the items of an array are no more than its bytes. -/
theorem skipValue_ok {levels type pos p : Nat} (h : skipValue m levels type pos = .ok p) : pos < p ∧ p ≤ m.size := by
  induction levels generalizing type pos p with
  | zero => nomatch h
  | succ levels ih =>
    unfold skipValue at h
    dsimp only at h
    split_ifs at h with hscalar hstring harray
    · obtain ⟨rfl, hle⟩ := cursorSkip_ok h
      exact ⟨by omega, hle⟩
    · obtain ⟨⟨s, q⟩, hs, hq⟩ := (bind_ok).1 h
      have heq : q = p := Except.ok.inj hq
      exact heq ▸ cursorString_ok hs
    · obtain ⟨⟨itemType, q⟩, hq, h⟩ := (bind_ok).1 h
      obtain ⟨⟨len, r⟩, hr, h⟩ := (bind_ok).1 h
      obtain ⟨hqpos, -, -⟩ := cursorRead_ok hq
      obtain ⟨hrpos, hrle, -⟩ := cursorRead_ok hr
      dsimp only at h
      split_ifs at h with hitem hbig
      · nomatch h
      · obtain ⟨rfl, hle⟩ := cursorSkip_ok h
        exact ⟨by omega, hle⟩
      · obtain ⟨hle, hpos⟩ := turns_ok (P := fun s => s ≤ m.size) (w := id)
          (fun s s' _ hs => (ih hs).symm) hrle h
        have hr : r + len ≤ p := hpos
        exact ⟨by omega, hle⟩
    · nomatch h

theorem parseKv_ok {st st' : MetaState} (h : parseKv m st = .ok st') :
    st'.pos ≤ m.size ∧ st.pos < st'.pos ∧ st'.kv.length = st.kv.length + 1 := by
  obtain ⟨⟨key, p⟩, hkey, h⟩ := (bind_ok).1 h
  obtain ⟨⟨type, q⟩, htype, h⟩ := (bind_ok).1 h
  obtain ⟨next, hnext, h⟩ := (bind_ok).1 h
  obtain ⟨hp, -⟩ := cursorString_ok hkey
  obtain ⟨rfl, -, -⟩ := cursorRead_ok htype
  obtain ⟨hq, hle⟩ := skipValue_ok hnext
  rw [← Except.ok.inj h]
  refine ⟨hle, ?_, List.length_append⟩
  show st.pos < next
  omega

/-- What the loop over the dimensions keeps: the count is their product, in 64 bits. -/
def DimState.Sound (m : GgufFile) (st : DimState) : Prop :=
  st.elements = st.dim.prod ∧ st.elements ≤ UINT64_MAX ∧ st.pos ≤ m.size

theorem parseDim_ok {st st' : DimState} (hst : st.Sound m) (h : parseDim m st = .ok st') :
    st'.Sound m ∧ st.pos < st'.pos := by
  obtain ⟨hprod, hmax, -⟩ := hst
  obtain ⟨⟨d, p⟩, hd, h⟩ := (bind_ok).1 h
  obtain ⟨rfl, hle, -⟩ := cursorRead_ok hd
  dsimp only at h
  split_ifs at h with hover
  rw [← Except.ok.inj h]
  refine ⟨⟨?_, ?_, hle⟩, Nat.lt_add_of_pos_right (by decide)⟩
  · show st.elements * d = (st.dim ++ [d]).prod
    rw [List.prod_append, hprod, List.prod_singleton]
  · show st.elements * d ≤ UINT64_MAX
    rcases Nat.eq_zero_or_pos d with rfl | hpos
    · exact Nat.zero_le _
    · have : st.elements ≤ UINT64_MAX / d := by omega
      exact (Nat.le_div_iff_mul_le hpos).1 this

/-- What the first loop records of a tensor. -/
def Tensor.Read (t : Tensor) : Prop :=
  t.elements = t.dim.prod ∧ t.elements ≤ UINT64_MAX ∧ t.bytes = (tensorNbytes t.type t.elements).getD 0

theorem parseTensor_ok {st st' : List Tensor × Nat} (h : parseTensor m st = .ok st') :
    (∃ t, t.Read ∧ st'.1 = st.1 ++ [t]) ∧ st'.2 ≤ m.size ∧ st.2 < st'.2 := by
  obtain ⟨⟨name, p⟩, hname, h⟩ := (bind_ok).1 h
  obtain ⟨⟨ndim, q⟩, hndim, h⟩ := (bind_ok).1 h
  dsimp only at h
  split_ifs at h
  obtain ⟨dims, hdims, h⟩ := (bind_ok).1 h
  obtain ⟨⟨type, r⟩, htype, h⟩ := (bind_ok).1 h
  obtain ⟨⟨relOffset, s⟩, hoffset, h⟩ := (bind_ok).1 h
  obtain ⟨hp, -⟩ := cursorString_ok hname
  obtain ⟨rfl, hqle, -⟩ := cursorRead_ok hndim
  obtain ⟨⟨hprod, hmax, -⟩, hpos⟩ := turns_ok (P := DimState.Sound m) (w := DimState.pos)
    (fun _ _ => parseDim_ok) ⟨rfl, Nat.le_of_ble_eq_true rfl, hqle⟩ hdims
  obtain ⟨rfl, -, -⟩ := cursorRead_ok htype
  obtain ⟨rfl, hle, -⟩ := cursorRead_ok hoffset
  rw [← Except.ok.inj h]
  refine ⟨⟨_, ⟨hprod, hmax, rfl⟩, rfl⟩, hle, ?_⟩
  have hpos' : p + 4 + ndim ≤ dims.pos := hpos
  show st.2 < dims.pos + 4 + 8
  omega

theorem placeTensor_ok {pos : Nat} {t t' : Tensor} (h : placeTensor m pos t = .ok t') :
    (∃ off, t' = { t with absOffset := off }) ∧ (t'.bytes ≠ 0 → t'.absOffset + t'.bytes ≤ m.size) := by
  unfold placeTensor at h
  dsimp only at h
  split_ifs at h with hover houtside
  rw [← Except.ok.inj h]
  refine ⟨⟨_, rfl⟩, fun hbytes => ?_⟩
  show pos + t.relOffset + t.bytes ≤ m.size
  have hbytes' : t.bytes ≠ 0 := hbytes
  omega

theorem mem_of_mapM {f : α → Except String β} {xs : List α} {ys : List β} (h : xs.mapM f = .ok ys) :
    ys.length = xs.length ∧ ∀ y ∈ ys, ∃ x ∈ xs, f x = .ok y := by
  induction xs generalizing ys with
  | nil =>
    have hnil : [] = ys := Except.ok.inj h
    rw [← hnil]
    exact ⟨rfl, nofun⟩
  | cons x xs ih =>
    rw [List.mapM_cons] at h
    obtain ⟨y, hy, h⟩ := (bind_ok).1 h
    obtain ⟨zs, hzs, h⟩ := (bind_ok).1 h
    obtain ⟨hlen, hmem⟩ := ih hzs
    have hcons : y :: zs = ys := Except.ok.inj h
    rw [← hcons]
    refine ⟨congrArg (· + 1) hlen, fun z hz => ?_⟩
    rcases List.mem_cons.1 hz with rfl | hz
    · exact ⟨x, List.mem_cons_self, hy⟩
    · obtain ⟨x', hx', hfx'⟩ := hmem z hz
      exact ⟨x', List.mem_cons_of_mem x hx', hfx'⟩

/-! ### Soundness -/

/-- The bytes of so many elements in whole blocks, as a number. -/
def TypeInfo.size (info : TypeInfo) (elements : Nat) : Nat :=
  (elements + info.blockElems - 1) / info.blockElems * info.blockBytes

/-- The range of a tensor is in the file. -/
def Tensor.Inside (m : GgufFile) (t : Tensor) : Prop :=
  ∀ off, t.absOffset ≤ off → off < t.absOffset + t.bytes → off < m.size

/-- The size is the one of the type, and the range is in the file. -/
def Tensor.Sound (m : GgufFile) (t : Tensor) : Prop :=
  (∃ info, ds4qTypeTraits t.type = some info ∧ t.bytes = info.size t.elements) ∧ t.Inside m

/-- Every tensor that is recorded is sound. -/
def DirectorySound (mem : Memory) (m : GgufFile) : Prop :=
  ∀ model, modelOpen mem m = .ok model → ∀ t ∈ model.tensors, t.Sound m

theorem blockBytes_pos {type : Nat} {info : TypeInfo} (h : tensorType type = some info) : 0 < info.blockBytes := by
  unfold tensorType at h
  split at h <;> cases h <;> decide

/-- Where neither the rounding nor the product wraps, the size is exact. -/
theorem tensorNbytes_exact {type elements : Nat} {info : TypeInfo} (h : tensorType type = some info)
    (hround : elements + info.blockElems ≤ UINT64_MAX + 1) (hfit : info.size elements ≤ UINT64_MAX) :
    tensorNbytes type elements = some (info.size elements) := by
  have hmod : (elements + info.blockElems - 1) % (UINT64_MAX + 1) = elements + info.blockElems - 1 :=
    Nat.mod_eq_of_lt (by have : 0 < UINT64_MAX := by decide
                         omega)
  unfold tensorNbytes
  rw [h]
  dsimp only
  rw [hmod, if_neg]
  · rfl
  · exact Nat.not_lt.2 ((Nat.le_div_iff_mul_le (blockBytes_pos h)).2 hfit)

theorem tensorNbytes_none {type elements : Nat} (h : tensorType type = none) : tensorNbytes type elements = none := by
  unfold tensorNbytes
  rw [h]

/-- The two tables differ in three types. -/
theorem tables_agree_iff {type : Nat} {info : TypeInfo} (h : tensorType type = some info) :
    ds4qTypeTraits type = some info ↔ type ≠ 9 ∧ type ≠ 19 ∧ type ≠ 20 := by
  unfold tensorType at h
  split at h <;> cases h <;> decide

/-- **A directory that is accepted** has no more entries than the file has bytes.  The range of every tensor is in the
    file; and where both tables know its type and neither the rounding to blocks nor the size wraps, the size is
    exact.  A type that is not in the table leaves the size 0. -/
theorem gguf_directory_sound (mem : Memory) (m : GgufFile) (model : Model) (h : modelOpen mem m = .ok model) :
    model.kv.length + model.tensors.length ≤ m.size ∧
      ∀ t ∈ model.tensors, t.elements = t.dim.prod ∧ t.Inside m ∧
        (∀ info, tensorType t.type = some info → t.type ≠ 9 ∧ t.type ≠ 19 ∧ t.type ≠ 20 →
          t.elements + info.blockElems ≤ UINT64_MAX + 1 → info.size t.elements ≤ UINT64_MAX → t.Sound m) ∧
        (tensorType t.type = none → t.bytes = 0) := by
  unfold modelOpen at h
  split_ifs at h
  obtain ⟨⟨magic, p⟩, -, h⟩ := (bind_ok).1 h
  dsimp only at h
  split_ifs at h
  obtain ⟨⟨version, q⟩, -, h⟩ := (bind_ok).1 h
  obtain ⟨⟨nTensors, r⟩, -, h⟩ := (bind_ok).1 h
  obtain ⟨⟨nKv, s⟩, hs, h⟩ := (bind_ok).1 h
  dsimp only at h
  split_ifs at h
  obtain ⟨-, hsle, -⟩ := cursorRead_ok hs
  obtain ⟨st, hst, h⟩ := (bind_ok).1 h
  unfold parseMetadata at hst
  split_ifs at hst
  obtain ⟨hkv, hkvpos⟩ := turns_ok (P := fun st => st.pos ≤ m.size ∧ st.kv.length ≤ st.pos) (w := MetaState.pos)
    (fun st st' hst hbody => by
      obtain ⟨hle, hlt, hlen⟩ := parseKv_ok hbody
      exact ⟨⟨hle, by omega⟩, hlt⟩) ⟨hsle, Nat.zero_le _⟩ hst
  unfold parseTensors at h
  split_ifs at h
  obtain ⟨⟨tensors, pos⟩, htensors, h⟩ := (bind_ok).1 h
  obtain ⟨placed, hplaced, h⟩ := (bind_ok).1 h
  obtain ⟨hread, -⟩ := turns_ok
    (P := fun ts => ts.2 ≤ m.size ∧ st.kv.length + ts.1.length ≤ ts.2 ∧ ∀ t ∈ ts.1, t.Read) (w := Prod.snd)
    (fun ts ts' hts hbody => by
      obtain ⟨⟨t, ht, heq⟩, hle, hlt⟩ := parseTensor_ok hbody
      rw [heq]
      refine ⟨⟨hle, ?_, fun t' ht' => ?_⟩, hlt⟩
      · rw [List.length_append, List.length_singleton]
        have := hts.2.1
        omega
      · rcases List.mem_append.1 ht' with ht' | ht'
        · exact hts.2.2 t' ht'
        · exact (List.mem_singleton.1 ht') ▸ ht) ⟨hkv.1, hkv.2, nofun⟩ htensors
  obtain ⟨hlen, hmem⟩ := mem_of_mapM hplaced
  rw [← Except.ok.inj h]
  refine ⟨?_, fun t ht => ?_⟩
  · show st.kv.length + placed.length ≤ m.size
    rw [hlen]
    exact Nat.le_trans hread.2.1 hread.1
  · obtain ⟨t₀, ht₀, hplace⟩ := hmem t ht
    obtain ⟨⟨off, rfl⟩, hinside⟩ := placeTensor_ok hplace
    obtain ⟨hprod, hmax, hbytes⟩ := hread.2.2 t₀ ht₀
    have hin : Tensor.Inside m { t₀ with absOffset := off } := by
      intro i hlow hhigh
      have hsize : t₀.bytes ≠ 0 → off + t₀.bytes ≤ m.size := hinside
      have hlow' : off ≤ i := hlow
      have hhigh' : i < off + t₀.bytes := hhigh
      omega
    refine ⟨hprod, hin, fun info hinfo htable hround hfit => ⟨⟨info, (tables_agree_iff hinfo).2 htable, ?_⟩, hin⟩,
      fun hnone => ?_⟩
    · show t₀.bytes = info.size t₀.elements
      rw [hbytes, tensorNbytes_exact hinfo hround hfit]
      rfl
    · show t₀.bytes = 0
      rw [hbytes, tensorNbytes_none hnone]
      rfl

/-- A file with one tensor of one dimension and 48 bytes behind its directory. -/
def sampleFile (type dim : Nat) : GgufFile where
  bytes := leBytes 4 DS4_GGUF_MAGIC ++ leBytes 4 3 ++ leBytes 8 1 ++ leBytes 8 0 ++
    (leBytes 8 0 ++ leBytes 4 1 ++ leBytes 8 dim ++ leBytes 4 type ++ leBytes 8 0) ++ List.replicate 48 0
  size_lt := by
    simp only [List.length_append, leBytes_length, List.length_replicate]
    decide

/-- What is recorded of it. -/
def sampleTensor (type dim bytes : Nat) : Tensor := ⟨[], [dim], type, 0, 64, dim, bytes⟩

def ampleMemory : Memory := ⟨fun _ => true, fun _ => true⟩

theorem gguf_directory_sound_sample : (sampleTensor 8 32 34).Sound (sampleFile 8 32) := by
  have h := gguf_directory_sound ampleMemory (sampleFile 8 32) ⟨[], 32, 64, [sampleTensor 8 32 34]⟩
    (by decide +kernel)
  exact (h.2 _ List.mem_cons_self).2.2.1 ⟨32, 34⟩ rfl (by decide) (by decide) (by decide)

theorem not_sound_of {type dim : Nat} (bytes : Nat) (hdir : DirectorySound ampleMemory (sampleFile type dim))
    (h : modelOpen ampleMemory (sampleFile type dim) = .ok ⟨[], 32, 64, [sampleTensor type dim bytes]⟩) :
    ∃ info, ds4qTypeTraits type = some info ∧ bytes = info.size dim :=
  (hdir _ h _ List.mem_cons_self).1

/-- A type that is not in the table, one whose blocks have another size where they are written, and a count whose
    rounding to blocks wraps. -/
theorem not_gguf_directory_sound :
    ¬ DirectorySound ampleMemory (sampleFile 4 1) ∧ ¬ DirectorySound ampleMemory (sampleFile 9 32) ∧
      ¬ DirectorySound ampleMemory (sampleFile 2 0xffffffffffffffff) := by
  refine ⟨fun h => ?_, fun h => ?_, fun h => ?_⟩
  · obtain ⟨info, hinfo, -⟩ := not_sound_of 0 h (by decide +kernel)
    exact absurd hinfo nofun
  · obtain ⟨info, hinfo, hbytes⟩ := not_sound_of 40 h (by decide +kernel)
    rw [← Option.some.inj hinfo] at hbytes
    exact absurd hbytes (by decide)
  · obtain ⟨info, hinfo, hbytes⟩ := not_sound_of 0 h (by decide +kernel)
    rw [← Option.some.inj hinfo] at hbytes
    exact absurd hbytes (by decide)

end DS4.Engine.Gguf
