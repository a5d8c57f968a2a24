import DS4.FlashMoe.ManifestValues

namespace DS4.FlashMoe

/-!
# Flash-MoE — a manifest that is JSON

The list of entries is looked up as the first bracket behind the first text of its key, and each field
of an entry at the first text of its own key.  Where these are the places of JSON, the scanner visits
the objects of the list and reads the fields as a parser gives them.

* `entriesPlace` — where the scanner takes the list from; `EntriesAt` — where it stands.
* `visits_objects` — **the entries** are the objects of the list, up to something that is no object.
* `manifest_agrees_with_json` — what is read of a text that is JSON; the loops end on every text.
* `parseEntry_of_gives` — an entry does not depend on how it is spelled.
-/

open DS4.Server (Bytes lit cstr strstr isspace)
open DS4.Lib (Ends)
open DS4.Lib.Json (Member Element IsObject IsArray IsValue IsDocument Picks place literal Space Piece
  NumberIs StringIs)

variable {json : Bytes} {pos : Nat} {es : List Element}

/-! ### The place of the list -/

/-- The bracket behind which the scanner expects the entries. -/
def entriesPlace (json : Bytes) : Option Nat :=
  (strstr json (lit "\"entries\"")).bind fun i => (strstr (json.drop i) (lit "[")).map (i + ·)

theorem forEachEntry_none {σ : Type} (h : entriesPlace json = none) (fn : Cursor → σ → Option σ) (ud : σ) :
    flashMoeForEachEntry json fn ud = none := by
  unfold entriesPlace at h
  unfold flashMoeForEachEntry
  cases hi : strstr json (lit "\"entries\"") with
  | none => rfl
  | some i =>
    rw [hi, Option.bind_some, Option.map_eq_none_iff] at h
    dsimp only
    rw [h]

theorem forEachEntry_some {σ : Type} (h : entriesPlace json = some pos) (fn : Cursor → σ → Option σ) (ud : σ) :
    flashMoeForEachEntry json fn ud = entriesLoop fn (json.length + 1) (json.drop (pos + 1)) ud := by
  unfold entriesPlace at h
  obtain ⟨i, hi, hrest⟩ := Option.bind_eq_some_iff.mp h
  obtain ⟨j, hj, rfl⟩ := Option.map_eq_some_iff.mp hrest
  unfold flashMoeForEachEntry
  rw [hi]
  dsimp only
  rw [hj]

/-- The bracket at `pos` opens the list of entries of a document: the array that a parser gives for
    the key in the outermost object. -/
def EntriesAt (json : Bytes) (pos : Nat) (es : List Element) : Prop :=
  ∃ front v ms before m, IsDocument json front v ∧ IsObject v ms ∧ Picks ms (codes "entries") before m ∧
    IsArray m.value es ∧
    pos = front.length + (place before m + (literal m.name).length + m.mid.length + 1 + m.back.length)

/-- What stands behind the bracket. -/
theorem EntriesAt.drop (h : EntriesAt json pos es) :
    (∀ e ∈ es, e.WellFormed) ∧ ∃ body z, json.drop (pos + 1) = body ++ ']'.toUInt8 :: z ∧
      (es = [] ∧ Space body ∨ es ≠ [] ∧ body = Lib.Json.row (es.map Element.text)) := by
  obtain ⟨front, v, ms, before, m, ⟨after, hjson, -, -, -⟩, hv, ⟨ms', rfl, -, -⟩, harray, rfl⟩ := h
  obtain ⟨hes, body, hvalue, hbody⟩ := harray
  obtain ⟨pre, tail, hat, hpre, -⟩ := hv.at_place
  refine ⟨hes, body, m.after ++ tail ++ after, ?_, ?_⟩
  · -- all that stands before the elements
    have hsplit : json = (front ++ (pre ++ (literal m.name ++ (m.mid ++ 0x3a :: (m.back ++ ['['.toUInt8]))))) ++
        (body ++ ']'.toUInt8 :: (m.after ++ tail ++ after)) := by
      rw [hjson, hat, hvalue]
      simp [Lib.Json.opening, Lib.Json.closing]
      exact ⟨rfl, rfl⟩
    have hlength : (front ++ (pre ++ (literal m.name ++ (m.mid ++ 0x3a :: (m.back ++ ['['.toUInt8]))))).length =
        front.length + (place before m + (literal m.name).length + m.mid.length + 1 + m.back.length) + 1 := by
      simp only [List.length_append, List.length_cons, List.length_nil, hpre]
      omega
    rw [hsplit, ← hlength, List.drop_left]
  · rcases hbody with ⟨hnil, hspace⟩ | ⟨hne, hrow⟩
    · exact Or.inl ⟨List.map_eq_nil_iff.mp hnil, hspace⟩
    · exact Or.inr ⟨fun h => hne (List.map_eq_nil_iff.mpr h), hrow⟩

/-! ### The entries -/

/-- **The entries** are the objects of the list, up to something that is no object. -/
theorem visits_objects (hfound : entriesPlace json = some pos) (h : EntriesAt json pos es) :
    ∃ cs : List Cursor, (∀ c ∈ cs, ∃ o rest, c = .of o rest) ∧
      cs.map Cursor.object = (es.takeWhile Element.isObject).map Element.value ∧
      ∀ {σ : Type} (fn : Cursor → σ → Option σ) (ud : σ), flashMoeForEachEntry json fn ud =
        (cs.foldlM (fun ud c => fn c ud) ud).bind fun ud => if es.all Element.isObject then some ud else none := by
  obtain ⟨hes, body, z, hdrop, ⟨rfl, hspace⟩ | ⟨hne, rfl⟩⟩ := h.drop
  · refine ⟨[], fun c hc => absurd hc List.not_mem_nil, rfl, fun fn ud => ?_⟩
    rw [forEachEntry_some hfound, hdrop]
    exact entriesLoop_close (isspace_of_space hspace) json.length z ud
  · obtain ⟨cs, hcs, hmap, hloop⟩ := entriesLoop_row hes hne z
    refine ⟨cs, fun c hc => ?_, hmap, fun fn ud => ?_⟩
    · obtain ⟨e, -, rest, rfl⟩ := hcs c hc
      exact ⟨e.value, rest, rfl⟩
    · have hshort : es.length ≤ json.length := by
        have hrow : (es.map Element.text).length ≤ (Lib.Json.row (es.map Element.text)).length := by
          apply Lib.Json.length_le_row
          intro y hy
          obtain ⟨e, he, rfl⟩ := List.mem_map.mp hy
          exact (hes e he).text_ne_nil
        have hlength := congrArg List.length hdrop
        rw [List.length_map] at hrow
        rw [List.length_drop, List.length_append] at hlength
        omega
      rw [forEachEntry_some hfound, hdrop]
      exact hloop fn _ ud (Nat.lt_succ_of_le hshort)

/-- **An entry** does not depend on how it is spelled: two objects that say the same are read as the
    same entry. -/
theorem parseEntry_of_gives {o o' : Bytes} {ms ms' : List Member} (ho : IsObject o ms) (ho' : IsObject o' ms')
    (h : ∀ f ∈ manifestFields, Readable f o ms) (h' : ∀ f ∈ manifestFields, Readable f o' ms')
    (hsame : ∀ f ∈ manifestFields, ∀ x : FieldValue, x.kind = f.2 → (Gives ms f.1 x ↔ Gives ms' f.1 x))
    (rest rest' : Bytes) (v : Variant) (dir : Bytes) (ctx : ParseCtx) :
    flashMoeParseEntry v dir (.of o rest) ctx = flashMoeParseEntry v dir (.of o' rest') ctx := by
  apply parseEntry_congr
  intro f hf
  apply Option.ext
  intro x
  rw [read_iff (h f hf) ho, read_iff (h' f hf) ho']
  exact and_congr_right (hsame f hf x)

/-! ### Manifests without white space -/

/-- A character of a name that is written as it is. -/
def RawChar (c : Char) : Prop := 0x20 ≤ c.toNat ∧ c.toNat ≠ 0x22 ∧ c.toNat ≠ 0x5c

instance (c : Char) : Decidable (RawChar c) := inferInstanceAs (Decidable (_ ∧ _))

theorem rawChars {name : List Char} (h : name.all (fun c => decide (RawChar c)) = true) : ∀ c ∈ name, RawChar c :=
  fun c hc => of_decide_eq_true (List.all_eq_true.mp h c hc)

/-- A member without white space whose name is written without escapes. -/
def rawMember (name : List Char) (h : ∀ c ∈ name, RawChar c) (v : Bytes) : Member :=
  ⟨[], name.pmap Piece.raw h, [], [], v, []⟩

def objectOf (ms : List Member) : Bytes :=
  Lib.Json.opening true :: (Lib.Json.row (ms.map Member.text) ++ [Lib.Json.closing true])

def arrayOf (es : List Element) : Bytes :=
  Lib.Json.opening false :: (Lib.Json.row (es.map Element.text) ++ [Lib.Json.closing false])

theorem space_nil : Space [] := fun _ hc => absurd hc List.not_mem_nil

theorem isObject_objectOf {ms : List Member} (hne : ms ≠ []) (h : ∀ m ∈ ms, m.WellFormed) :
    IsObject (objectOf ms) ms :=
  ⟨h, _, rfl, Or.inr ⟨fun h => hne (List.map_eq_nil_iff.mp h), rfl⟩⟩

theorem isArray_arrayOf {es : List Element} (hne : es ≠ []) (h : ∀ e ∈ es, e.WellFormed) :
    IsArray (arrayOf es) es :=
  ⟨h, _, rfl, Or.inr ⟨fun h => hne (List.map_eq_nil_iff.mp h), rfl⟩⟩

theorem wellFormed_rawMember {name : List Char} (h : ∀ c ∈ name, RawChar c) {v : Bytes} (hv : IsValue v) :
    (rawMember name h v).WellFormed := ⟨space_nil, space_nil, space_nil, hv, space_nil⟩

/-- The member of the list of entries. -/
def listMember (os : List Bytes) : Member :=
  rawMember ['e', 'n', 't', 'r', 'i', 'e', 's'] (rawChars (by decide)) (arrayOf (os.map fun o => ⟨[], o, []⟩))

/-- The member of the layer. -/
def layerMember (v : Bytes) : Member := rawMember ['l', 'a', 'y', 'e', 'r'] (rawChars (by decide)) v

theorem isArray_list {os : List Bytes} (hne : os ≠ []) (h : ∀ o ∈ os, IsValue o) :
    IsArray (arrayOf (os.map fun o => ⟨[], o, []⟩)) (os.map fun o => ⟨[], o, []⟩) := by
  apply isArray_arrayOf (fun hnil => hne (List.map_eq_nil_iff.mp hnil))
  intro e he
  obtain ⟨o, ho, rfl⟩ := List.mem_map.mp he
  exact ⟨space_nil, h o ho, space_nil⟩

theorem named_listMember (os : List Bytes) : (listMember os).Named (codes "entries") := by
  have hname : Lib.Json.decoded (['e', 'n', 't', 'r', 'i', 'e', 's'].pmap Piece.raw (rawChars (by decide))) =
      codes "entries" := by decide +kernel
  exact hname

/-- The list of entries as the last member of an object. -/
theorem entriesAt_listMember {ms : List Member} (hms : ∀ m ∈ ms, m.WellFormed) {os : List Bytes} (hne : os ≠ [])
    (hos : ∀ o ∈ os, IsValue o) :
    EntriesAt (objectOf (ms ++ [listMember os])) (place ms (listMember os) + 10) (os.map fun o => ⟨[], o, []⟩) := by
  have harray := isArray_list hne hos
  have hobject : IsObject (objectOf (ms ++ [listMember os])) (ms ++ [listMember os]) := by
    apply isObject_objectOf (by simp)
    intro m hm
    rcases List.mem_append.mp hm with hm | hm
    · exact hms m hm
    · obtain rfl := List.mem_singleton.mp hm
      exact wellFormed_rawMember _ harray.isValue
  refine ⟨[], _, _, ms, listMember os, ⟨[], ?_, space_nil, space_nil, hobject.isValue⟩, hobject,
    ⟨[], rfl, named_listMember os, fun m hm => absurd hm List.not_mem_nil⟩, harray, ?_⟩
  · rw [List.append_nil, List.nil_append]
  · have hname : (literal (listMember os).name).length = 9 := rfl
    rw [hname, List.length_nil, Nat.zero_add]
    rfl

/-- What the scanner reads of all entries for a key. -/
def readAll (json : Bytes) (key : String) (kind : FieldKind) : Option (List (Option FieldValue)) :=
  flashMoeForEachEntry json (fun c xs => some (xs ++ [kind.read c key])) []

/-- A manifest of these entries. -/
def manifestOf (os : List Bytes) : Bytes := objectOf [listMember os]

theorem entriesAt_manifestOf {os : List Bytes} (hne : os ≠ []) (hos : ∀ o ∈ os, IsValue o) :
    EntriesAt (manifestOf os) 11 (os.map fun o => ⟨[], o, []⟩) := by
  have hms : ∀ m ∈ ([] : List Member), m.WellFormed := fun m hm => absurd hm List.not_mem_nil
  exact entriesAt_listMember hms hne hos

/-- A digit that is not zero. -/
theorem isValue_digit {c : UInt8} (hc : 0x31 ≤ c ∧ c ≤ 0x39) : IsValue [c] := by
  have hdigit : Lib.Json.Digits [c] :=
    ⟨List.cons_ne_nil _ _, List.forall_mem_singleton.mpr ⟨UInt8.le_trans (by decide) hc.1, hc.2⟩⟩
  have hint : Lib.Json.Integer [c] := by
    refine Or.inr ⟨hdigit, fun h => ?_⟩
    obtain rfl := Option.some.inj h
    exact absurd hc.1 (by decide)
  exact ⟨0, .number (.mk (Or.inl rfl) hint (Or.inl rfl) (Or.inl rfl))⟩

theorem isValue_number {v : Bytes} {q : ℚ} (h : NumberIs v q) : IsValue v := ⟨0, .number h.number⟩

/-- `1e1` is ten. -/
theorem numberIs_exponent : NumberIs (lit "1e1") 10 := by
  have hone : Lib.Json.Digits [0x31] := ⟨List.cons_ne_nil _ _, List.forall_mem_singleton.mpr (by decide)⟩
  have hexp : Lib.Json.Exponent [0x65, 0x31] :=
    Or.inr ⟨0x65, [], [0x31], Or.inl rfl, Or.inl rfl, hone, rfl⟩
  have hnumber := NumberIs.mk (Or.inl rfl) (Or.inr ⟨hone, by decide⟩) (Or.inl rfl) hexp
  have hvalue : (if ([] : Bytes) = [] then (1 : ℚ) else -1) *
      (Lib.Json.natOf [0x31] + Lib.Json.fractionValue []) * 10 ^ Lib.Json.exponentValue [0x65, 0x31] = 10 := by
    simp [Lib.Json.fractionValue, Lib.Json.exponentValue, Lib.Json.natOf]
  rw [hvalue] at hnumber
  exact hnumber

/-! ### What is read of a manifest -/

/-- **What is read of a manifest.**  On every text the loops end.  Where the text is JSON and the
    first bracket behind the first text of the key opens the list of entries, its objects are visited in
    order, up to something that is no object; a field that is readable is read as a parser gives it. -/
theorem manifest_agrees_with_json (json : Bytes) :
    (∀ {σ : Type} (fn : Cursor → σ → Option σ) (ud : σ),
      entriesPlace json = none ∧ flashMoeForEachEntry json fn ud = none ∨
        ∃ pos r, entriesPlace json = some pos ∧ Ends (entriesRound fn) (json.drop (pos + 1), ud) r ∧
          flashMoeForEachEntry json fn ud = r) ∧
    (∀ obj : Cursor, ∀ f ∈ manifestFields,
      ∃ r, Ends (findKeyRound (keyPat f.1)) obj r ∧ findKey obj f.1 = r) ∧
    ∀ pos es, entriesPlace json = some pos → EntriesAt json pos es →
      ∃ cs : List Cursor, cs.map Cursor.object = (es.takeWhile Element.isObject).map Element.value ∧
        (∀ {σ : Type} (fn : Cursor → σ → Option σ) (ud : σ), flashMoeForEachEntry json fn ud =
          (cs.foldlM (fun ud c => fn c ud) ud).bind fun ud =>
            if es.all Element.isObject then some ud else none) ∧
        ∀ c ∈ cs, ∀ ms, IsObject c.object ms → ∀ f ∈ manifestFields, Readable f c.object ms →
          ∀ x, f.2.read c f.1 = some x ↔ x.kind = f.2 ∧ Gives ms f.1 x := by
  refine ⟨fun fn ud => ?_, fun obj f _ => ?_, fun pos es hfound hat => ?_⟩
  · cases hpos : entriesPlace json with
    | none => exact Or.inl ⟨rfl, forEachEntry_none hpos fn ud⟩
    | some pos =>
      obtain ⟨r, hr, hloop⟩ := entriesLoop_ends fn (json.drop (pos + 1)) ud
      refine Or.inr ⟨pos, r, rfl, hr, ?_⟩
      rw [forEachEntry_some hpos]
      apply hloop
      rw [List.length_drop]
      omega
  · obtain ⟨r, hr, hloop⟩ := findKeyLoop_ends (List.cons_ne_nil _ _ : keyPat f.1 ≠ []) obj
    exact ⟨r, hr, hloop _ (Nat.lt_succ_self _)⟩
  · obtain ⟨cs, hcs, hmap, hloop⟩ := visits_objects hfound hat
    refine ⟨cs, hmap, hloop, fun c hc ms hms f _ hread x => ?_⟩
    obtain ⟨o, rest, rfl⟩ := hcs c hc
    rw [Cursor.of_object] at hms hread
    exact read_iff hread hms rest x

/-- One entry with a layer and nothing else. -/
theorem manifest_layer_one :
    ∃ c : Cursor, (∀ fn : Cursor → Nat → Option Nat,
      flashMoeForEachEntry (manifestOf [objectOf [layerMember (lit "1")]]) fn 0 = fn c 0) ∧
      FieldKind.u64.read c "layer" = some (.u64 1) ∧ FieldKind.u64Array3.read c "shape" = none := by
  have hone : IsValue (lit "1") := isValue_digit (by decide)
  have hlayer : IsObject (objectOf [layerMember (lit "1")]) [layerMember (lit "1")] :=
    isObject_objectOf (List.cons_ne_nil _ _) (List.forall_mem_singleton.mpr (wellFormed_rawMember _ hone))
  obtain ⟨-, -, h⟩ := manifest_agrees_with_json (manifestOf [objectOf [layerMember (lit "1")]])
  obtain ⟨cs, hmap, hloop, hread⟩ := h 11 _ (by decide +kernel)
    (entriesAt_manifestOf (List.cons_ne_nil _ _) (List.forall_mem_singleton.mpr hlayer.isValue))
  obtain ⟨c, rfl, hobject⟩ := List.map_eq_singleton_iff.mp hmap
  have hms : IsObject c.object [layerMember (lit "1")] := by rw [hobject]; exact hlayer
  -- no key stands where it should not
  have hfacts : (layerMember (lit "1")).Named (codes "layer") ∧ ¬ (layerMember (lit "1")).Named (codes "shape") ∧
      literal (layerMember (lit "1")).name = keyPat "layer" ∧
      (∀ i < 1, ¬ KeyAt "layer" ((objectOf [layerMember (lit "1")]).drop i)) ∧
      ∀ i ≤ (objectOf [layerMember (lit "1")]).length,
        ¬ KeyAt "shape" ((objectOf [layerMember (lit "1")]).drop i) := by
    decide +kernel
  obtain ⟨hnamed, hother, hraw, hfirst, hlacking⟩ := hfacts
  have hpicks : ∀ {name before m}, Picks [layerMember (lit "1")] name before m →
      before = [] ∧ m = layerMember (lit "1") ∧ m.Named name := by
    rintro name before m ⟨after, heq, hname, -⟩
    cases before with
    | nil => exact ⟨rfl, (List.cons.inj heq).1.symm, hname⟩
    | cons a before => exact absurd (List.cons.inj heq).2 (by simp)
  have hlayerField : Readable ("layer", .u64) c.object [layerMember (lit "1")] := by
    rw [hobject]
    refine ⟨⟨fun before m hp => ?_, fun before m hp => ?_, fun hl => ?_⟩, fun before m hp => ?_⟩
    · rw [(hpicks hp).2.1]
      exact hraw
    · obtain ⟨rfl, rfl, -⟩ := hpicks hp
      exact hfirst
    · exact absurd hnamed (hl _ (List.mem_singleton_self _))
    · obtain ⟨rfl, rfl, -⟩ := hpicks hp
      intro q hq
      exact hq.digits (List.forall_mem_singleton.mpr (by decide))
  have hshapeField : Readable ("shape", .u64Array3) c.object [layerMember (lit "1")] := by
    have hnone : ∀ {before m}, ¬ Picks [layerMember (lit "1")] (codes "shape") before m := by
      intro before m hp
      obtain ⟨-, rfl, hname⟩ := hpicks hp
      exact hother hname
    rw [hobject]
    exact ⟨⟨fun before m hp => absurd hp hnone, fun before m hp => absurd hp hnone, fun _ => hlacking⟩,
      fun before m hp => absurd hp hnone⟩
  refine ⟨c, fun fn => ?_, ?_, ?_⟩
  · have hrun := hloop fn 0
    have hall : ([objectOf [layerMember (lit "1")]].map fun o => (⟨[], o, []⟩ : Element)).all
        Element.isObject = true := rfl
    rw [hall] at hrun
    simpa using hrun
  · rw [hread c (List.mem_singleton_self c) _ hms ("layer", .u64) (by decide) hlayerField]
    refine ⟨rfl, ⟨[], layerMember (lit "1"), ⟨[], rfl, hnamed, fun m hm => absurd hm List.not_mem_nil⟩, ?_⟩⟩
    exact numberIs_of_small hone ⟨List.forall_mem_singleton.mpr (by decide), by decide⟩
  · have hnothing := hread c (List.mem_singleton_self c) _ hms ("shape", .u64Array3) (by decide) hshapeField
    rw [Option.eq_none_iff_forall_ne_some]
    intro x hx
    obtain ⟨-, before, m, hp, -⟩ := (hnothing x).mp hx
    obtain ⟨-, rfl, hname⟩ := hpicks hp
    exact hother hname

/-- A layer in an object inside of the entry, before the layer of the entry. -/
def nestedLayer : List Member :=
  [rawMember ['a'] (rawChars (by decide)) (objectOf [layerMember (lit "1")]), layerMember (lit "2")]

/-- A decimal digit in an escape. -/
def digit (d : Fin 10) : Lib.Json.Hex :=
  ⟨UInt8.ofNat (0x30 + d), d, by
    left
    have hd := d.isLt
    have hbyte : (UInt8.ofNat (0x30 + d)).toNat = 0x30 + d := by
      rw [UInt8.toNat_ofNat']
      omega
    omega⟩

/-- A type with an escape. -/
def escapedType : List Piece :=
  [.raw 'Q' (by decide), .unit (digit 0) (digit 0) (digit 3) (digit 2), .raw '_' (by decide), .raw 'K' (by decide)]

def typeMember (v : Bytes) : Member :=
  rawMember ['q', 'u', 'a', 'n', 't', '_', 't', 'y', 'p', 'e'] (rawChars (by decide)) v

/-- Another list of entries before the list. -/
def twoLists : List Member := [rawMember ['n'] (rawChars (by decide)) (objectOf [listMember []])]

/-- A manifest with one entry, of which a parser gives `x` for a key and the scanner reads `y`. -/
structure ReadOtherwise (ms : List Member) (key : String) (x y : FieldValue) : Prop where
  object : IsObject (objectOf ms) ms
  entry : EntriesAt (manifestOf [objectOf ms]) 11 [⟨[], objectOf ms, []⟩]
  gives : Gives ms key x
  reads : readAll (manifestOf [objectOf ms]) key x.kind = some [some y]
  ne : x ≠ y

/-- **Four manifests** that are read otherwise: the key stands deeper first, a number has an
    exponent, a string has a code unit, the key of the list stands deeper first. -/
theorem manifest_read_otherwise :
    ReadOtherwise nestedLayer "layer" (.u64 2) (.u64 1) ∧
    ReadOtherwise [layerMember (lit "1e1")] "layer" (.u64 10) (.u64 1) ∧
    ReadOtherwise [typeMember (literal escapedType)] "quant_type" (.string (lit "Q2_K"))
      (.string (lit "Qu0032_K")) ∧
    ∃ pos, EntriesAt (objectOf (twoLists ++ [listMember [objectOf [layerMember (lit "1")]]])) pos
        [⟨[], objectOf [layerMember (lit "1")], []⟩] ∧
      readAll (objectOf (twoLists ++ [listMember [objectOf [layerMember (lit "1")]]])) "layer" .u64 = some [] := by
  have hone : IsValue (lit "1") := isValue_digit (by decide)
  have htwo : IsValue (lit "2") := isValue_digit (by decide)
  have hobject : ∀ {m : Member}, m.WellFormed → IsObject (objectOf [m]) [m] := fun hm =>
    isObject_objectOf (List.cons_ne_nil _ _) (List.forall_mem_singleton.mpr hm)
  have hmanifest : ∀ {o ms}, IsObject o ms → EntriesAt (manifestOf [o]) 11 [⟨[], o, []⟩] := fun ho =>
    entriesAt_manifestOf (List.cons_ne_nil _ _) (List.forall_mem_singleton.mpr ho.isValue)
  have hlast : ∀ {name m}, m ∈ ([] : List Member) → ¬ m.Named name := fun hm => absurd hm List.not_mem_nil
  have hlayerOne := hobject (wellFormed_rawMember (rawChars (by decide)) hone : (layerMember (lit "1")).WellFormed)
  have hnested : IsObject (objectOf nestedLayer) nestedLayer := by
    apply isObject_objectOf (List.cons_ne_nil _ _)
    intro m hm
    rcases List.mem_cons.mp hm with rfl | hm
    · exact wellFormed_rawMember _ hlayerOne.isValue
    · obtain rfl := List.mem_singleton.mp hm
      exact wellFormed_rawMember _ htwo
  have htens := hobject (wellFormed_rawMember (rawChars (by decide)) (isValue_number numberIs_exponent) :
    (layerMember (lit "1e1")).WellFormed)
  have htype := hobject (wellFormed_rawMember (rawChars (by decide)) ⟨0, .string escapedType⟩ :
    (typeMember (literal escapedType)).WellFormed)
  have hlists : ∀ m ∈ twoLists, m.WellFormed := by
    intro m hm
    obtain rfl := List.mem_singleton.mp hm
    have hempty : IsValue (arrayOf []) := ⟨1, .empty false space_nil⟩
    exact wellFormed_rawMember _ (hobject (wellFormed_rawMember _ hempty : (listMember []).WellFormed)).isValue
  -- what the scanner makes of them
  have hreads :
      readAll (manifestOf [objectOf nestedLayer]) "layer" .u64 = some [some (.u64 1)] ∧
      readAll (manifestOf [objectOf [layerMember (lit "1e1")]]) "layer" .u64 = some [some (.u64 1)] ∧
      readAll (manifestOf [objectOf [typeMember (literal escapedType)]]) "quant_type" .string =
        some [some (.string (lit "Qu0032_K"))] ∧
      readAll (objectOf (twoLists ++ [listMember [objectOf [layerMember (lit "1")]]])) "layer" .u64 = some [] := by
    decide +kernel
  -- and a parser
  have hnames : (∀ v ∈ [lit "2", lit "1e1"], (layerMember v).Named (codes "layer")) ∧
      (typeMember (literal escapedType)).Named (codes "quant_type") ∧
      (Lib.Json.decoded escapedType).flatMap Lib.encodePoint = lit "Q2_K" := by decide +kernel
  obtain ⟨hread1, hread2, hread3, hread4⟩ := hreads
  obtain ⟨hnamed, hnamedType, hdecoded⟩ := hnames
  have hsmall : Small (lit "2") := ⟨List.forall_mem_singleton.mpr (by decide), by decide⟩
  have hplace := entriesAt_listMember hlists (List.cons_ne_nil _ _)
    (List.forall_mem_singleton.mpr hlayerOne.isValue)
  refine ⟨⟨hnested, hmanifest hnested, ?_, hread1, by decide⟩,
    ⟨htens, hmanifest htens, ?_, hread2, by decide⟩,
    ⟨htype, hmanifest htype, ?_, hread3, by decide⟩, _, hplace, hread4⟩
  · refine ⟨nestedLayer.take 1, layerMember (lit "2"), ⟨[], rfl, hnamed _ (by simp), fun m hm => hlast hm⟩, ?_⟩
    exact numberIs_of_small htwo hsmall
  · refine ⟨[], layerMember (lit "1e1"), ⟨[], rfl, hnamed _ (by simp), fun m hm => hlast hm⟩, ?_⟩
    exact numberIs_exponent
  · refine ⟨[], typeMember (literal escapedType), ⟨[], rfl, hnamedType, fun m hm => hlast hm⟩, ?_⟩
    exact ⟨escapedType, rfl, hdecoded.symm⟩

end DS4.FlashMoe
