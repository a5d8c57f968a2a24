import DS4.FlashMoe.AsyncReader
import DS4.Server.Text

namespace DS4.FlashMoe

/-!
# Flash-MoE — the manifest of the sidecar

The manifest is a JSON file with one entry for each weight family of each layer.  Its reader looks keys up
by a plain search and keeps what the entries say in the tables of the layers.

* `Cursor`, `findKey` — a pointer with the `end` of its search, and the place behind a key.
* `jsonU64`, `jsonBool`, `jsonString`, `jsonU64Array3` — the values.
* `flashMoeParseEntry` — one entry; `flashMoeForEachEntry` — all of them.
-/

open DS4.Server (Bytes lit cstr strstr isspace)

/-! ### Pointers -/

/-- A pointer into the manifest: the text from there on, and how far it is to `end`. -/
structure Cursor where
  text : Bytes
  left : Nat

namespace Cursor

/-- `*p`, where `p < end`. -/
def head? (c : Cursor) : Option UInt8 := if c.left = 0 then none else c.text.head?

/-- `p + n` -/
def drop (c : Cursor) (n : Nat) : Cursor := ⟨c.text.drop n, c.left - n⟩

/-- `while (p < end && isspace(*p)) p++` -/
def skipSpace (c : Cursor) : Cursor := c.drop ((c.text.take c.left).takeWhile isspace).length

end Cursor

/-- The loop of `flash_moe_find_key`: the next place of the key that a colon follows. -/
def findKeyLoop (pat : Bytes) : Nat → Cursor → Option Cursor
  | 0, _ => none
  | fuel + 1, p =>
    if p.left < pat.length then none
    else
      match strstr p.text pat with
      | none   => none
      | some i =>
        if p.left < i + pat.length then none
        else
          let q := (p.drop (i + pat.length)).skipSpace
          if q.head? = some ':'.toUInt8 then some (q.drop 1)
          else findKeyLoop pat fuel (p.drop (i + 1))

/-- A key in quotation marks. -/
def keyPat (key : String) : Bytes := lit "\"" ++ lit key ++ lit "\""

/-- `flash_moe_find_key` -/
def findKey (obj : Cursor) (key : String) : Option Cursor := findKeyLoop (keyPat key) (obj.left + 1) obj

/-! ### Values -/

/-- `isdigit` -/
def isDigit (c : UInt8) : Bool := decide (0x30 ≤ c ∧ c ≤ 0x39)

/-- The value of decimal digits. -/
def decimal (s : Bytes) : Nat := s.foldl (fun v c => 10 * v + (c.toNat - 0x30)) 0

/-- `strtoull` at a digit; the number must fit in 64 bits and stop before `end`. -/
def Cursor.u64 (p : Cursor) : Option (UInt64 × Cursor) :=
  match p.head? with
  | none   => none
  | some c =>
    let digits := p.text.takeWhile isDigit
    if ¬ isDigit c ∨ UInt64.size ≤ decimal digits ∨ p.left < digits.length then none
    else some (UInt64.ofNat (decimal digits), p.drop digits.length)

/-- `flash_moe_json_u64` -/
def jsonU64 (obj : Cursor) (key : String) : Option UInt64 :=
  match findKey obj key with
  | none   => none
  | some p => p.skipSpace.u64.map Prod.fst

/-- `flash_moe_json_bool` -/
def jsonBool (obj : Cursor) (key : String) : Option Bool :=
  match findKey obj key with
  | none   => none
  | some p =>
    let s := p.skipSpace.text.take p.skipSpace.left
    if (lit "true").isPrefixOf s then some true
    else if (lit "false").isPrefixOf s then some false
    else none

/-- What an escape stands for. -/
def unescape (c : UInt8) : UInt8 :=
  if c = 'b'.toUInt8 then 0x08
  else if c = 'f'.toUInt8 then 0x0c
  else if c = 'n'.toUInt8 then 0x0a
  else if c = 'r'.toUInt8 then 0x0d
  else if c = 't'.toUInt8 then 0x09
  else c

/-- The loop of `flash_moe_json_string`, up to the closing quotation mark. -/
def stringLoop : Bytes → Option Bytes
  | [] => none
  | [c] => if c = '"'.toUInt8 then some [] else none
  | c :: e :: s =>
    if c = '"'.toUInt8 then some []
    else if c = '\\'.toUInt8 then (stringLoop s).map (unescape e :: ·)
    else (stringLoop (e :: s)).map (c :: ·)

/-- `flash_moe_json_string`; the string is used as a C string. -/
def jsonString (obj : Cursor) (key : String) : Option Bytes :=
  match findKey obj key with
  | none   => none
  | some p =>
    match p.skipSpace.text.take p.skipSpace.left with
    | []     => none
    | c :: s => if c = '"'.toUInt8 then (stringLoop s).map cstr else none

/-- The numbers of an array from `p` on, each with what must follow it. -/
def u64s : List UInt8 → Cursor → Option (List UInt64)
  | [], _ => some []
  | sep :: seps, p =>
    match p.skipSpace.u64 with
    | none        => none
    | some (v, q) =>
      if q.skipSpace.head? = some sep then (u64s seps (q.skipSpace.drop 1)).map (v :: ·) else none

/-- `flash_moe_json_u64_array3` -/
def jsonU64Array3 (obj : Cursor) (key : String) : Option (List UInt64) :=
  match findKey obj key with
  | none   => none
  | some p =>
    if p.skipSpace.head? = some '['.toUInt8 then
      u64s [','.toUInt8, ','.toUInt8, ']'.toUInt8] (p.skipSpace.drop 1)
    else none

/-! ### Families and types -/

/-- `ds4_variant` -/
inductive Variant where
  | flash
  | pro

/-- `DS4_N_LAYER` -/
def Variant.nLayer : Variant → Nat
  | .flash => 43
  | .pro   => 61

/-- `DS4_N_EXPERT` -/
def Variant.nExpert : Variant → Nat
  | .flash => 256
  | .pro   => 384

/-- `DS4_N_EMBD` -/
def Variant.nEmbd : Variant → Nat
  | .flash => 4096
  | .pro   => 7168

/-- `DS4_N_FF_EXP` -/
def Variant.nFfExp : Variant → Nat
  | .flash => 2048
  | .pro   => 3072

def TENSOR_Q2_K : Nat := 10
def TENSOR_Q4_K : Nat := 12
def TENSOR_IQ2_XXS : Nat := 16
def TENSOR_MXFP4 : Nat := 39

/-- `flash_moe_family_id` -/
def flashMoeFamilyId (family : Bytes) : Option Family :=
  if family = lit "ffn_gate_exps" then some .gate
  else if family = lit "ffn_up_exps" then some .up
  else if family = lit "ffn_down_exps" then some .down
  else none

/-- `flash_moe_quant_type_id` -/
def flashMoeQuantTypeId (quant : Bytes) : Option Nat :=
  if quant = lit "IQ2_XXS" then some TENSOR_IQ2_XXS
  else if quant = lit "Q2_K" then some TENSOR_Q2_K
  else if quant = lit "Q4_K" then some TENSOR_Q4_K
  else if quant = lit "MXFP4" then some TENSOR_MXFP4
  else none

/-- `expected_width`: the length of the rows of a family. -/
def Variant.width (v : Variant) : Family → Nat
  | .gate => v.nEmbd
  | .up   => v.nEmbd
  | .down => v.nFfExp

/-- `expected_rows` -/
def Variant.rows (v : Variant) : Family → Nat
  | .gate => v.nFfExp
  | .up   => v.nFfExp
  | .down => v.nEmbd

/-- `flash_moe_expected_shape` -/
def flashMoeExpectedShape (v : Variant) (fam : Family) (shape : List UInt64) : Bool :=
  shape = [UInt64.ofNat (v.width fam), UInt64.ofNat (v.rows fam), UInt64.ofNat v.nExpert]

/-! ### Entries -/

/-- `ds4_flash_moe_layer_sidecar` -/
structure LayerSidecar where
  path : Option Bytes
  fileSize : UInt64
  familyOffset : Family → UInt64
  familyBytes : Family → UInt64
  familyType : Family → Nat
  expertStride : UInt64
  present : Family → Bool

/-- `xcalloc` -/
def LayerSidecar.zero : LayerSidecar where
  path := none
  fileSize := 0
  familyOffset := fun _ => 0
  familyBytes := fun _ => 0
  familyType := fun _ => 0
  expertStride := 0
  present := fun _ => false

/-- `flash_moe_parse_ctx`: the layers, and how many entries were seen. -/
structure ParseCtx where
  layer : Nat → LayerSidecar
  seenEntries : Nat

/-- `ds4_join_path` -/
def joinPath (dir name : Bytes) : Bytes :=
  if dir.getLast? = some '/'.toUInt8 then dir ++ name else dir ++ lit "/" ++ name

/-- What an entry adds to its layer; `none` where it says something else than an earlier one. -/
def LayerSidecar.add (layer : LayerSidecar) (path : Bytes) (fam : Family) (type : Nat)
    (bytes offset stride : UInt64) : Option LayerSidecar :=
  if layer.present fam then none
  else if ¬ (layer.path = none ∨ layer.path = some path) then none
  else if stride ≠ 0 ∧ layer.expertStride ≠ 0 ∧ layer.expertStride ≠ stride then none
  else some
    { layer with
      path := some path
      familyOffset := Function.update layer.familyOffset fam offset
      familyBytes := Function.update layer.familyBytes fam bytes
      familyType := Function.update layer.familyType fam type
      present := Function.update layer.present fam true
      expertStride := if stride ≠ 0 then stride else layer.expertStride }

/-- `flash_moe_parse_entry`; the stride may be left out, and `expert_major` too. -/
def flashMoeParseEntry (v : Variant) (dir : Bytes) (obj : Cursor) (ctx : ParseCtx) : Option ParseCtx := do
  let layerU64 ← jsonU64 obj "layer"
  let family ← jsonString obj "tensor_family"
  let quant ← jsonString obj "quant_type"
  let shape ← jsonU64Array3 obj "shape"
  let file ← jsonString obj "repacked_file"
  let bytes ← jsonU64 obj "bytes_per_expert"
  let offset ← jsonU64 obj "repacked_offset"
  let stride := (jsonU64 obj "expert_stride").getD 0
  let expertMajor := (jsonBool obj "expert_major").getD true
  let fam ← flashMoeFamilyId family
  let type ← flashMoeQuantTypeId quant
  if layerU64.toNat ≥ v.nLayer ∨ ¬ expertMajor ∨ bytes = 0 ∨ ¬ flashMoeExpectedShape v fam shape then none
  else
    let layer ← (ctx.layer layerU64.toNat).add (joinPath dir file) fam type bytes offset stride
    some ⟨Function.update ctx.layer layerU64.toNat layer, ctx.seenEntries + 1⟩

/-! ### The list of entries -/

/-- Where the scan of an object stands. -/
structure Scan where
  depth : Nat
  inString : Bool
  escape : Bool
  deriving DecidableEq

def Scan.step (st : Scan) (c : UInt8) : Scan :=
  if st.inString then
    if st.escape then { st with escape := false }
    else if c = '\\'.toUInt8 then { st with escape := true }
    else if c = '"'.toUInt8 then { st with inString := false }
    else st
  else if c = '"'.toUInt8 then { st with inString := true }
  else if c = '\x7b'.toUInt8 then { st with depth := st.depth + 1 }
  else if c = '\x7d'.toUInt8 then { st with depth := st.depth - 1 }
  else st

/-- The scan for the closing brace of an object: how many bytes up to behind it. -/
def objectLength : Bytes → Scan → Option Nat
  | [], _ => none
  | c :: s, st =>
    if c = '\x7d'.toUInt8 ∧ st.inString = false ∧ (st.step c).depth = 0 then some 1
    else (objectLength s (st.step c)).map (· + 1)

variable {σ : Type}

/-- The loop of `flash_moe_for_each_entry`. -/
def entriesLoop (fn : Cursor → σ → Option σ) : Nat → Bytes → σ → Option σ
  | 0, _, _ => none
  | fuel + 1, s, ud =>
    if s = [] then none
    else
      match s.dropWhile isspace with
      | []     => some ud
      | c :: t =>
        if c = ']'.toUInt8 then some ud
        else if c ≠ '\x7b'.toUInt8 then none
        else
          match objectLength (c :: t) ⟨0, false, false⟩ with
          | none   => none
          | some n =>
            match fn ⟨c :: t, n⟩ ud with
            | none    => none
            | some ud =>
              -- the closing brace must not be the last byte of the file
              if (c :: t).drop n = [] then none
              else
                let rest := ((c :: t).drop n).dropWhile isspace
                entriesLoop fn fuel (if rest.head? = some ','.toUInt8 then rest.tail else rest) ud

/-- `flash_moe_for_each_entry` -/
def flashMoeForEachEntry (json : Bytes) (fn : Cursor → σ → Option σ) (ud : σ) : Option σ :=
  match strstr json (lit "\"entries\"") with
  | none   => none
  | some i =>
    match strstr (json.drop i) (lit "[") with
    | none   => none
    | some j => entriesLoop fn (json.length + 1) (json.drop (i + j + 1)) ud

/-- What the manifest says of the layers, where it is accepted. -/
def parseManifest (v : Variant) (dir json : Bytes) : Option (Nat → LayerSidecar) :=
  match flashMoeForEachEntry json (flashMoeParseEntry v dir) ⟨fun _ => .zero, 0⟩ with
  | none     => none
  | some ctx => if ctx.seenEntries = v.nLayer * 3 then some ctx.layer else none

/-- A manifest with an entry for each family of each layer. -/
theorem parseManifest_of {v : Variant} {dir json : Bytes} {ctx : ParseCtx}
    (h : flashMoeForEachEntry json (flashMoeParseEntry v dir) ⟨fun _ => .zero, 0⟩ = some ctx)
    (hseen : ctx.seenEntries = v.nLayer * 3) : parseManifest v dir json = some ctx.layer := by
  unfold parseManifest
  rw [h]
  exact if_pos hseen

end DS4.FlashMoe
