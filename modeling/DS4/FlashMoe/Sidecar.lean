import DS4.FlashMoe.Bank
import DS4.FlashMoe.Manifest
import DS4.Lib.Records

namespace DS4.FlashMoe

/-!
# Flash-MoE — opening the sidecar

The loader checks the layers against the manifest and the sizes of their files; the readers then compute
the places of the records in 64 bits.

* `sidecarOpen` — opening, and `preadSlotDirect` — the reads of one record.
* `Bounded` — every family of every expert lies in the file and in its own record, and no two meet.
* `openLayer_spec`, `openLayers_spec` — what the loader has checked of a layer, and of all.
* `bounded_layer_iff` — a layer is bounded just if it does not overflow and its families do not meet.
* `openedSidecar` — what the asynchronous reader takes for granted of a layer.
-/

open DS4.Server (Bytes lit)
open DS4.Lib (Records)

/-! ### Opening -/

/-- The loops over `DS4_FLASH_FAMILY_COUNT`. -/
def families : List Family := [.gate, .up, .down]

theorem mem_families (fam : Family) : fam ∈ families := by
  cases fam <;> decide

/-- What opening a sidecar depends on: the files, the environment and the system calls. -/
structure OpenEnv where
  /-- `access(path, R_OK)` -/
  readable : Bytes → Bool
  /-- `flash_moe_read_file` -/
  readFile : Bytes → Option Bytes
  /-- The size of a file that `open` and `fstat` know, where it is not negative. -/
  stat : Bytes → Option UInt64
  /-- Does `mmap` succeed? -/
  mmap : Bytes → Bool
  /-- `DS4_N_EXPERT_ACTIVE_USED` -/
  activeExpertUsed : Nat
  /-- One of `DS4_FLASH_MOE_EXPERT_MMAP` and its five siblings is set. -/
  expertMmap : Bool
  /-- `direct_mmap_auto_disabled` -/
  directMmapAutoDisabled : Bool

/-- `tensor_is_routed_expert_type` -/
def tensorIsRoutedExpertType (type : Nat) : Bool :=
  type = TENSOR_IQ2_XXS ∨ type = TENSOR_Q2_K ∨ type = TENSOR_Q4_K ∨ type = TENSOR_MXFP4

/-- `routed_expert_block_bytes` -/
def routedExpertBlockBytes (type : Nat) : Nat :=
  if type = TENSOR_IQ2_XXS then 66
  else if type = TENSOR_Q2_K then 84
  else if type = TENSOR_Q4_K then 144
  else 17

/-- `routed_expert_block_elems` -/
def routedExpertBlockElems (type : Nat) : Nat := if type = TENSOR_MXFP4 then 32 else 256

/-- `routed_expert_row_bytes_for_type`; every width of the models is a number of blocks. -/
def routedExpertRowBytes (type width : Nat) : Nat :=
  width / routedExpertBlockElems type * routedExpertBlockBytes type

/-- The bytes of a family of one expert. -/
def expectedBytes (v : Variant) (layer : LayerSidecar) (fam : Family) : Nat :=
  v.rows fam * routedExpertRowBytes (layer.familyType fam) (v.width fam)

/-- The end of a family in the record. -/
def LayerSidecar.familyEnd (layer : LayerSidecar) (fam : Family) : UInt64 :=
  layer.familyOffset fam + layer.familyBytes fam

/-- `min_stride` -/
def LayerSidecar.minStride (layer : LayerSidecar) : UInt64 :=
  families.foldl (fun m fam => if layer.familyEnd fam > m then layer.familyEnd fam else m) 0

/-- The checks of a family. -/
def familyOk (v : Variant) (layer : LayerSidecar) (fam : Family) : Bool :=
  layer.present fam ∧ tensorIsRoutedExpertType (layer.familyType fam) ∧
    (layer.familyBytes fam).toNat = expectedBytes v layer fam ∧
      ¬ layer.familyOffset fam > UINT64_MAX - layer.familyBytes fam

/-- A stride that was left out. -/
def LayerSidecar.withStride (layer : LayerSidecar) : LayerSidecar :=
  { layer with expertStride := if layer.expertStride = 0 then layer.minStride else layer.expertStride }

/-- The body of the loop over the layers. -/
def openLayer (v : Variant) (env : OpenEnv) (mmap : Bool) (layer : LayerSidecar) : Option LayerSidecar :=
  if ¬ families.all (familyOk v layer) then none
  else if layer.familyType .gate ≠ layer.familyType .up then none
  else if layer.withStride.expertStride < layer.minStride then none
  else
    match layer.path.bind env.stat with
    | none          => none
    | some fileSize =>
      if fileSize < UInt64.ofNat (v.nExpert - 1) * layer.withStride.expertStride + layer.minStride then none
      else if mmap ∧ (fileSize = 0 ∨ ¬ layer.path.any env.mmap) then none
      else some { layer.withStride with fileSize := fileSize }

/-- `ds4_flash_moe_sidecar`, as far as it says where the records are. -/
structure SidecarFiles where
  dir : Bytes
  slotBank : Nat
  layer : Nat → LayerSidecar

/-- The loop over the layers. -/
def openLayers (v : Variant) (env : OpenEnv) (mmap : Bool) : List Nat → (Nat → LayerSidecar) →
    Option (Nat → LayerSidecar)
  | [], layer       => some layer
  | il :: ils, layer =>
    match openLayer v env mmap (layer il) with
    | none   => none
    | some l => openLayers v env mmap ils (Function.update layer il l)

/-- The directory that holds the manifest. -/
def sidecarDir (env : OpenEnv) (dir : Bytes) : Bytes :=
  if env.readable (joinPath dir (lit "manifest.json")) then dir else joinPath dir (lit "sidecar")

/-- `direct_mmap_auto_large_mxfp4` -/
def directMmapAuto (env : OpenEnv) (slotBank : Nat) (layer : LayerSidecar) : Bool :=
  !env.directMmapAutoDisabled && decide (slotBank > 128) &&
    families.all fun fam => layer.familyType fam = TENSOR_MXFP4

/-- `ds4_flash_moe_sidecar_open` -/
def sidecarOpen (v : Variant) (env : OpenEnv) (dir : Bytes) (slotBank : Nat) : Option SidecarFiles :=
  if dir = [] then none
  else if slotBank < env.activeExpertUsed ∨ slotBank > v.nExpert then none
  else
    match env.readFile (joinPath (sidecarDir env dir) (lit "manifest.json")) with
    | none      => none
    | some json =>
      match parseManifest v (sidecarDir env dir) json with
      | none       => none
      | some layer =>
        let mmap := env.expertMmap || directMmapAuto env slotBank (layer 0)
        (openLayers v env mmap (List.range v.nLayer) layer).map fun layer => ⟨sidecarDir env dir, slotBank, layer⟩

/-! ### Reading -/

/-- `metal_graph_flash_moe_pread_slot_direct`: the reads it makes, each with where and how long it is. -/
def preadSlotDirect (v : Variant) (layer : LayerSidecar) (trueExpert : Nat) : Option (List (UInt64 × UInt64)) :=
  if trueExpert ≥ v.nExpert then none
  else
    let recordOffset := UInt64.ofNat trueExpert * layer.expertStride
    (families.filter fun fam => layer.familyBytes fam ≠ 0).mapM fun fam =>
      if layer.familyOffset fam > UINT64_MAX - recordOffset then none
      else some (recordOffset + layer.familyOffset fam, layer.familyBytes fam)

/-! ### The places of the records -/

/-- The records of a layer, in numbers that do not wrap. -/
def LayerSidecar.records (layer : LayerSidecar) : Records Family where
  stride := layer.expertStride.toNat
  off fam := (layer.familyOffset fam).toNat
  len fam := (layer.familyBytes fam).toNat

/-- **The purpose** of the checks: the family of an expert is where 64 bits compute it, in the file and in the
    expert's own record, and no two families of any experts meet. -/
def LayerSidecar.Bounded (v : Variant) (layer : LayerSidecar) : Prop :=
  (∀ e < v.nExpert, ∀ fam,
    (UInt64.ofNat e * layer.expertStride + layer.familyOffset fam).toNat = layer.records.start e fam ∧
      layer.records.start e fam + layer.records.len fam ≤ layer.fileSize.toNat ∧
        layer.records.field e fam ⊆ layer.records.record e) ∧
    ∀ e < v.nExpert, ∀ e' < v.nExpert, ∀ fam fam', (e, fam) ≠ (e', fam') →
      Disjoint (layer.records.field e fam) (layer.records.field e' fam')

/-- The end of the last family, as the manifest states it. -/
def LayerSidecar.reach (layer : LayerSidecar) : Nat :=
  families.foldl (fun m fam => max m ((layer.familyOffset fam).toNat + (layer.familyBytes fam).toNat)) 0

/-- The stride, as the manifest states it or leaves it out. -/
def LayerSidecar.stride (layer : LayerSidecar) : Nat :=
  if layer.expertStride = 0 then layer.reach else layer.expertStride.toNat

/-- The records of a layer of the manifest end below 2^64, and the families of a record do not meet. -/
def LayerSidecar.Fits (v : Variant) (layer : LayerSidecar) : Prop :=
  (v.nExpert - 1) * layer.stride + layer.reach < UInt64.size ∧ layer.records.Apart

/-! ### What the loader has checked -/

section

variable {v : Variant} {env : OpenEnv} {mmap : Bool} {layer l : LayerSidecar}

theorem Variant.nExpert_pos (v : Variant) : 0 < v.nExpert := by
  cases v <;> decide

/-- Every width is a number of blocks, so that no row is cut and no family is empty. -/
theorem expectedBytes_pos {fam : Family} (h : tensorIsRoutedExpertType (layer.familyType fam) = true) :
    0 < expectedBytes v layer fam := by
  have htype : layer.familyType fam = TENSOR_IQ2_XXS ∨ layer.familyType fam = TENSOR_Q2_K ∨
      layer.familyType fam = TENSOR_Q4_K ∨ layer.familyType fam = TENSOR_MXFP4 := of_decide_eq_true h
  unfold expectedBytes
  generalize layer.familyType fam = type at htype
  rcases htype with rfl | rfl | rfl | rfl <;> cases v <;> cases fam <;> decide

/-- What is checked of a family. -/
theorem familyOk_spec {fam : Family} (h : familyOk v layer fam = true) :
    0 < (layer.familyBytes fam).toNat ∧
      (layer.familyEnd fam).toNat = (layer.familyOffset fam).toNat + (layer.familyBytes fam).toNat := by
  obtain ⟨-, htype, hbytes, hmax⟩ := of_decide_eq_true h
  refine ⟨hbytes ▸ expectedBytes_pos htype, ?_⟩
  have hle : (layer.familyBytes fam).toNat ≤ UINT64_MAX.toNat := Nat.le_of_lt_succ (UInt64.toNat_lt _)
  rw [gt_iff_lt, UInt64.lt_iff_toNat_lt, UInt64.toNat_sub_of_le _ _ (UInt64.le_iff_toNat_le.mpr hle)] at hmax
  have hval : UINT64_MAX.toNat = 0xFFFFFFFFFFFFFFFF := rfl
  unfold LayerSidecar.familyEnd
  rw [UInt64.toNat_add, Nat.mod_eq_of_lt]
  omega

/-- `min_stride` is the end of the last family. -/
theorem minStride_toNat (h : ∀ fam, familyOk v layer fam = true) : layer.minStride.toNat = layer.reach := by
  have hgate := (familyOk_spec (h .gate)).2
  have hup := (familyOk_spec (h .up)).2
  have hdown := (familyOk_spec (h .down)).2
  have hstep : ∀ m e : UInt64, (if e > m then e else m).toNat = max m.toNat e.toNat := by
    intro m e
    by_cases hlt : e > m
    · rw [if_pos hlt, Nat.max_eq_right (Nat.le_of_lt (UInt64.lt_iff_toNat_lt.mp hlt))]
    · rw [if_neg hlt, Nat.max_eq_left (UInt64.le_iff_toNat_le.mp (UInt64.not_lt.mp hlt))]
  unfold LayerSidecar.minStride LayerSidecar.reach families
  simp only [List.foldl_cons, List.foldl_nil, hstep, hgate, hup, hdown]
  rfl

theorem le_reach (layer : LayerSidecar) (fam : Family) :
    (layer.familyOffset fam).toNat + (layer.familyBytes fam).toNat ≤ layer.reach := by
  unfold LayerSidecar.reach families
  simp only [List.foldl_cons, List.foldl_nil]
  cases fam <;> omega

theorem exists_reach (layer : LayerSidecar) (hpos : ∀ fam, 0 < (layer.familyBytes fam).toNat) :
    ∃ fam, (layer.familyOffset fam).toNat + (layer.familyBytes fam).toNat = layer.reach := by
  have hg := hpos .gate
  have hcases : layer.reach = (layer.familyOffset .gate).toNat + (layer.familyBytes .gate).toNat ∨
      layer.reach = (layer.familyOffset .up).toNat + (layer.familyBytes .up).toNat ∨
      layer.reach = (layer.familyOffset .down).toNat + (layer.familyBytes .down).toNat := by
    unfold LayerSidecar.reach families
    simp only [List.foldl_cons, List.foldl_nil]
    omega
  rcases hcases with h | h | h
  · exact ⟨.gate, h.symm⟩
  · exact ⟨.up, h.symm⟩
  · exact ⟨.down, h.symm⟩

/-- **An opened layer.**  It keeps what the manifest says of it, its stride holds the families, and the file is
    as long as 64 bits compute it. -/
theorem openLayer_spec (h : openLayer v env mmap layer = some l) :
    (∀ fam, familyOk v layer fam = true) ∧ l = { layer.withStride with fileSize := l.fileSize } ∧
      layer.minStride ≤ layer.withStride.expertStride ∧
        UInt64.ofNat (v.nExpert - 1) * layer.withStride.expertStride + layer.minStride ≤ l.fileSize := by
  unfold openLayer at h
  by_cases hok : families.all (familyOk v layer) = true
  swap
  · rw [if_pos hok] at h
    exact absurd h nofun
  rw [if_neg (not_not_intro hok)] at h
  by_cases htypes : layer.familyType .gate ≠ layer.familyType .up
  · rw [if_pos htypes] at h
    exact absurd h nofun
  rw [if_neg htypes] at h
  by_cases hstride : layer.withStride.expertStride < layer.minStride
  · rw [if_pos hstride] at h
    exact absurd h nofun
  rw [if_neg hstride] at h
  cases hstat : layer.path.bind env.stat with
  | none =>
    rw [hstat] at h
    exact absurd h nofun
  | some fileSize =>
    rw [hstat] at h
    dsimp only at h
    by_cases hsize : fileSize < UInt64.ofNat (v.nExpert - 1) * layer.withStride.expertStride + layer.minStride
    · rw [if_pos hsize] at h
      exact absurd h nofun
    rw [if_neg hsize] at h
    split at h
    · exact absurd h nofun
    · obtain rfl := Option.some.inj h
      exact ⟨fun fam => List.all_eq_true.mp hok fam (mem_families fam), rfl, UInt64.not_lt.mp hstride,
        UInt64.not_lt.mp hsize⟩

/-- The stride of an opened layer is that of the manifest, and its families end within it. -/
theorem withStride_toNat (hok : ∀ fam, familyOk v layer fam = true)
    (hmin : layer.minStride ≤ layer.withStride.expertStride) :
    layer.withStride.expertStride.toNat = layer.stride ∧ layer.reach ≤ layer.stride := by
  have hreach := minStride_toNat hok
  have heq : layer.withStride.expertStride.toNat = layer.stride := by
    unfold LayerSidecar.withStride LayerSidecar.stride
    dsimp only
    by_cases hzero : layer.expertStride = 0
    · rw [if_pos hzero, if_pos hzero, hreach]
    · rw [if_neg hzero, if_neg hzero]
  refine ⟨heq, ?_⟩
  rw [← heq, ← hreach]
  exact UInt64.le_iff_toNat_le.mp hmin

/-- **One layer.** -/
theorem bounded_layer_iff (h : openLayer v env mmap layer = some l) : l.Bounded v ↔ layer.Fits v := by
  obtain ⟨hok, hl, hmin, hsize⟩ := openLayer_spec h
  obtain ⟨hstride, hreach⟩ := withStride_toNat hok hmin
  have hpos := fun fam => (familyOk_spec (hok fam)).1
  have hn := v.nExpert_pos
  -- the places are those the manifest states
  have hrecords : l.records = { layer.records with stride := layer.stride } := by
    rw [hl, ← hstride]
    rfl
  have hfit : ∀ fam, l.records.off fam + l.records.len fam ≤ l.records.stride := by
    intro fam
    rw [hrecords]
    exact Nat.le_trans (le_reach layer fam) hreach
  have hends : (∀ e < v.nExpert, ∀ fam, l.records.start e fam + l.records.len fam ≤ l.fileSize.toNat) ↔
      (v.nExpert - 1) * layer.stride + layer.reach ≤ l.fileSize.toNat := by
    have hiff := @Records.fields_le_iff _ l.records v.nExpert l.fileSize.toNat layer.reach hn
      (by rw [hrecords]; exact le_reach layer) (by rw [hrecords]; exact exists_reach layer hpos)
    rw [hiff, hrecords]
  have hapart : (∀ e < v.nExpert, ∀ e' < v.nExpert, ∀ fam fam', (e, fam) ≠ (e', fam') →
      Disjoint (l.records.field e fam) (l.records.field e' fam')) ↔ layer.records.Apart := by
    have hiff := Records.fields_disjoint_iff (r := l.records) hn (by rw [hrecords]; exact hpos) hfit
    rw [hiff, hrecords]
    rfl
  constructor
  · rintro ⟨hin, hdisj⟩
    refine ⟨?_, hapart.mp hdisj⟩
    exact Nat.lt_of_le_of_lt (hends.mp fun e he fam => (hin e he fam).2.1) (UInt64.toNat_lt _)
  · rintro ⟨hwrap, hdisj⟩
    have hrequired : (v.nExpert - 1) * layer.stride + layer.reach ≤ l.fileSize.toNat := by
      have hle := UInt64.le_iff_toNat_le.mp hsize
      have hexpert : (UInt64.ofNat (v.nExpert - 1)).toNat = v.nExpert - 1 := by
        cases v <;> rfl
      rw [UInt64.toNat_add, UInt64.toNat_mul, hexpert, hstride, minStride_toNat hok,
        Nat.mod_eq_of_lt (show (v.nExpert - 1) * layer.stride < 2 ^ 64 from by
          exact Nat.lt_of_le_of_lt (Nat.le_add_right _ _) hwrap), Nat.mod_eq_of_lt hwrap] at hle
      exact hle
    refine ⟨fun e he fam => ?_, hapart.mpr hdisj⟩
    have hend := hends.mpr hrequired e he fam
    refine ⟨?_, hend, Records.field_subset_record (hfit fam) e⟩
    have hlt : l.records.start e fam < 2 ^ 64 :=
      Nat.lt_of_le_of_lt (Nat.le_trans (Nat.le_add_right _ _) hend) (UInt64.toNat_lt _)
    have hexpert : (UInt64.ofNat e).toNat = e := by
      have hlarge : v.nExpert < UInt64.size := by
        cases v <;> decide
      exact UInt64.toNat_ofNat_of_lt (Nat.lt_trans he hlarge)
    unfold Records.start at hlt ⊢
    have hmul : e * l.records.stride < 2 ^ 64 := Nat.lt_of_le_of_lt (Nat.le_add_right _ _) hlt
    rw [UInt64.toNat_add, UInt64.toNat_mul, hexpert]
    show (e * l.records.stride % 2 ^ 64 + l.records.off fam) % 2 ^ 64 = _
    rw [Nat.mod_eq_of_lt hmul, Nat.mod_eq_of_lt hlt]

/-- **The reads** of a record of a bounded layer are its families. -/
theorem preadSlotDirect_reads (hb : layer.Bounded v) (hpos : ∀ fam, layer.familyBytes fam ≠ 0) {e : Nat}
    (he : e < v.nExpert) :
    ∃ reads, preadSlotDirect v layer e = some reads ∧
      reads.map (fun r => (r.1.toNat, r.2.toNat)) =
        families.map fun fam => (layer.records.start e fam, layer.records.len fam) := by
  have hplace := fun fam => (hb.1 e he fam).1
  have hread : ∀ fam, ¬ layer.familyOffset fam > UINT64_MAX - UInt64.ofNat e * layer.expertStride := by
    intro fam
    -- the sum is at least the start of the record, so that it did not wrap
    have hsum := hplace fam
    have hexpert : (UInt64.ofNat e).toNat = e := by
      have hlarge : v.nExpert < UInt64.size := by
        cases v <;> decide
      exact UInt64.toNat_ofNat_of_lt (Nat.lt_trans he hlarge)
    have hstart : layer.records.start e fam = e * layer.expertStride.toNat + (layer.familyOffset fam).toNat := rfl
    have hbelow := UInt64.toNat_lt (UInt64.ofNat e * layer.expertStride + layer.familyOffset fam)
    rw [hsum, hstart] at hbelow
    have hmul : (UInt64.ofNat e * layer.expertStride).toNat = e * layer.expertStride.toNat := by
      rw [UInt64.toNat_mul, hexpert, Nat.mod_eq_of_lt (by omega)]
    have hmax : UINT64_MAX.toNat = 0xFFFFFFFFFFFFFFFF := rfl
    rw [gt_iff_lt, UInt64.lt_iff_toNat_lt, UInt64.toNat_sub_of_le, hmul, hmax]
    · omega
    · rw [UInt64.le_iff_toNat_le, hmul, hmax]
      omega
  refine ⟨families.map fun fam => (UInt64.ofNat e * layer.expertStride + layer.familyOffset fam,
    layer.familyBytes fam), ?_, ?_⟩
  · have hall : (families.filter fun fam => layer.familyBytes fam ≠ 0) = families :=
      List.filter_eq_self.mpr fun fam _ => decide_eq_true (hpos fam)
    unfold preadSlotDirect
    rw [if_neg (Nat.not_le.mpr he)]
    dsimp only
    rw [hall]
    unfold families
    simp only [List.mapM_cons, List.mapM_nil, if_neg (hread _)]
    rfl
  · rw [List.map_map]
    refine List.map_congr_left fun fam _ => ?_
    show ((_ : UInt64).toNat, _) = _
    rw [hplace fam]
    rfl

/-- An opened layer, as the asynchronous reader takes it. -/
def openedSidecar (h : openLayer v env mmap layer = some l) (fd : Nat) : Sidecar where
  fd := fd
  expertStride := l.expertStride.toNat
  familyOffset fam := (l.familyOffset fam).toNat
  familyBytes fam := (l.familyBytes fam).toNat
  fits := fun fam => by
    obtain ⟨hok, hl, hmin, -⟩ := openLayer_spec h
    obtain ⟨hstride, hreach⟩ := withStride_toNat hok hmin
    rw [hl]
    show (layer.familyOffset fam).toNat + (layer.familyBytes fam).toNat ≤ layer.withStride.expertStride.toNat
    rw [hstride]
    exact Nat.le_trans (le_reach layer fam) hreach

/-! ### All layers -/

/-- **The loop.**  Each layer is opened, and the others stay. -/
theorem openLayers_spec {ils : List Nat} {m m' : Nat → LayerSidecar} (hnodup : ils.Nodup)
    (h : openLayers v env mmap ils m = some m') :
    (∀ il ∈ ils, openLayer v env mmap (m il) = some (m' il)) ∧ ∀ il ∉ ils, m' il = m il := by
  induction ils generalizing m with
  | nil =>
    obtain rfl := Option.some.inj h
    exact ⟨nofun, fun _ _ => rfl⟩
  | cons il ils ih =>
    obtain ⟨hnotin, hnodup⟩ := List.nodup_cons.mp hnodup
    unfold openLayers at h
    cases hopen : openLayer v env mmap (m il) with
    | none =>
      rw [hopen] at h
      exact absurd h nofun
    | some l =>
      rw [hopen] at h
      obtain ⟨hin, hout⟩ := ih hnodup h
      constructor
      · intro k hk
        rcases List.mem_cons.mp hk with rfl | hk
        · rw [hout k hnotin, Function.update_self]
          exact hopen
        · have hne : k ≠ il := fun heq => hnotin (heq ▸ hk)
          rw [← hin k hk, Function.update_of_ne hne]
      · intro k hk
        have hne : k ≠ il := by
          rintro rfl
          exact hk List.mem_cons_self
        rw [hout k fun hmem => hk (List.mem_cons_of_mem il hmem), Function.update_of_ne hne]

/-- The loop ends where each layer is opened. -/
theorem openLayers_of_forall {ils : List Nat} {m : Nat → LayerSidecar} (hnodup : ils.Nodup)
    (h : ∀ il ∈ ils, ∃ l, openLayer v env mmap (m il) = some l) : ∃ m', openLayers v env mmap ils m = some m' := by
  induction ils generalizing m with
  | nil => exact ⟨m, rfl⟩
  | cons il ils ih =>
    obtain ⟨hnotin, hnodup⟩ := List.nodup_cons.mp hnodup
    obtain ⟨l, hl⟩ := h il List.mem_cons_self
    unfold openLayers
    rw [hl]
    refine ih hnodup fun k hk => ?_
    have hne : k ≠ il := by
      rintro rfl
      exact hnotin hk
    rw [Function.update_of_ne hne]
    exact h k (List.mem_cons_of_mem il hk)

end

/-- What the manifest of a sidecar says of the layers. -/
def manifest (v : Variant) (env : OpenEnv) (dir : Bytes) : Option (Nat → LayerSidecar) :=
  (env.readFile (joinPath (sidecarDir env dir) (lit "manifest.json"))).bind (parseManifest v (sidecarDir env dir))

variable {v : Variant} {env : OpenEnv} {dir : Bytes} {slotBank : Nat} {s : SidecarFiles}

theorem sidecarOpen_spec (h : sidecarOpen v env dir slotBank = some s) :
    ∃ m mmap, manifest v env dir = some m ∧ openLayers v env mmap (List.range v.nLayer) m = some s.layer := by
  unfold sidecarOpen at h
  split at h
  · exact absurd h nofun
  split at h
  · exact absurd h nofun
  unfold manifest
  cases hjson : env.readFile (joinPath (sidecarDir env dir) (lit "manifest.json")) with
  | none =>
    rw [hjson] at h
    exact absurd h nofun
  | some json =>
    rw [hjson] at h
    dsimp only at h
    rw [Option.bind_some]
    cases hm : parseManifest v (sidecarDir env dir) json with
    | none =>
      rw [hm] at h
      exact absurd h nofun
    | some m =>
      rw [hm] at h
      obtain ⟨layer, hlayer, rfl⟩ := Option.map_eq_some_iff.mp h
      exact ⟨m, _, rfl, hlayer⟩

/-- A sidecar whose layers are opened. -/
theorem sidecarOpen_of_layers {m layer : Nat → LayerSidecar} (hdir : dir ≠ [])
    (hslots : env.activeExpertUsed ≤ slotBank ∧ slotBank ≤ v.nExpert) (hm : manifest v env dir = some m)
    (h : openLayers v env (env.expertMmap || directMmapAuto env slotBank (m 0)) (List.range v.nLayer) m = some layer) :
    sidecarOpen v env dir slotBank = some ⟨sidecarDir env dir, slotBank, layer⟩ := by
  obtain ⟨json, hread, hparse⟩ := Option.bind_eq_some_iff.mp hm
  unfold sidecarOpen
  rw [if_neg hdir, if_neg (by omega), hread]
  dsimp only
  rw [hparse]
  dsimp only
  rw [h]
  rfl

/-- An open sidecar has been checked layer by layer. -/
theorem sidecarOpen_layer {m : Nat → LayerSidecar} (hm : manifest v env dir = some m)
    (h : sidecarOpen v env dir slotBank = some s) {il : Nat} (hil : il < v.nLayer) :
    ∃ mmap, openLayer v env mmap (m il) = some (s.layer il) := by
  obtain ⟨m', mmap, hm', hlayers⟩ := sidecarOpen_spec h
  obtain rfl := Option.some.inj (hm.symm.trans hm')
  exact ⟨mmap, (openLayers_spec List.nodup_range hlayers).1 il (List.mem_range.mpr hil)⟩

/-- What an open sidecar should promise of every layer. -/
def Bounded (v : Variant) (s : SidecarFiles) : Prop := ∀ il < v.nLayer, (s.layer il).Bounded v

end DS4.FlashMoe
