import DS4.Server.StreamApi
import DS4.Server.ToolChunks

namespace DS4.Server

/-!
# Server — whole characters in the tool stream

If the generated text is valid UTF-8, then so is every fragment that the tool stream sends, however
the text arrives: it cuts the text at an ASCII byte or where `utf8_stream_safe_len` says.

* `ValidDeltas` — every delta is valid; `HeldAt` — the first bytes of a character at a position.
* `utf8StreamSafeLen_held` — at most three bytes are held, and they begin a character.
* `StreamApi.toolStep_keeps`, `StreamApi.toolLoop_keeps` — a turn and the loop.
-/

/-! ### Deltas -/

/-- The text that a delta carries. -/
def Delta.text : Delta → Bytes
  | .reasoningContent t   => t
  | .content t            => t
  | .toolCallStart _ name => name
  | .toolCallArgs _ t     => t

/-- Every delta is valid UTF-8. -/
def ValidDeltas (ds : List Delta) : Prop := ∀ d ∈ ds, Lib.Valid d.text

/-- Some delta begins with `h`. -/
def Begins (h : Bytes) (ds : List Delta) : Prop := ∃ d ∈ ds, h <+: d.text

@[simp] theorem validDeltas_nil : ValidDeltas [] := fun _ hd => absurd hd List.not_mem_nil

@[simp] theorem validDeltas_cons {d : Delta} {ds : List Delta} :
    ValidDeltas (d :: ds) ↔ Lib.Valid d.text ∧ ValidDeltas ds := List.forall_mem_cons

@[simp] theorem validDeltas_append {ds ds' : List Delta} :
    ValidDeltas (ds ++ ds') ↔ ValidDeltas ds ∧ ValidDeltas ds' := List.forall_mem_append

theorem Begins.left {h : Bytes} {ds : List Delta} (hb : Begins h ds) (ds' : List Delta) :
    Begins h (ds ++ ds') := by
  obtain ⟨d, hd, hp⟩ := hb
  exact ⟨d, List.mem_append_left ds' hd, hp⟩

theorem Begins.right {h : Bytes} {ds' : List Delta} (hb : Begins h ds') (ds : List Delta) :
    Begins h (ds ++ ds') := by
  obtain ⟨d, hd, hp⟩ := hb
  exact ⟨d, List.mem_append_right ds hd, hp⟩

/-! ### Texts -/

theorem valid_lit (s : String) : Lib.Valid (lit s) := ⟨s.toList, rfl⟩

theorem valid_nil : Lib.Valid [] := valid_lit ""

/-- What the two rewritings make of a byte: ASCII stays ASCII, the others stay. -/
theorem rewritten_bytes :
    (∀ n < 256, (n < 128 → ∀ c ∈ jsonEscapeByte (UInt8.ofNat n), c.toNat ≤ 0x7f) ∧
      (128 ≤ n → jsonEscapeByte (UInt8.ofNat n) = [UInt8.ofNat n])) ∧
    ∀ e ∈ dsmlEntities, e.2.toNat ≤ 0x7f := by
  have hbytes : (List.range 256).all (fun n =>
      if n < 128 then (jsonEscapeByte (UInt8.ofNat n)).all (fun c => decide (c.toNat ≤ 0x7f))
      else jsonEscapeByte (UInt8.ofNat n) == [UInt8.ofNat n]) = true := by decide +kernel
  rw [List.all_eq_true] at hbytes
  refine ⟨fun n hn => ⟨fun h c hc => ?_, fun h => ?_⟩, by decide +kernel⟩
  · have hall := hbytes n (List.mem_range.mpr hn)
    rw [if_pos h, List.all_eq_true] at hall
    exact of_decide_eq_true (hall c hc)
  · have hsame := hbytes n (List.mem_range.mpr hn)
    rw [if_neg (Nat.not_lt.mpr h)] at hsame
    exact eq_of_beq hsame

theorem jsonEscapeByte_high {b : UInt8} (h : 0x80 ≤ b.toNat) : jsonEscapeByte b = [b] := by
  have hb := ((rewritten_bytes).1 b.toNat b.toNat_lt).2 h
  rwa [UInt8.ofNat_toNat] at hb

theorem valid_jsonEscapeFragment {s : Bytes} (h : Lib.Valid s) :
    Lib.Valid (jsonEscapeFragment s) := by
  refine h.flatMap (fun b hb => ?_) (fun b hb => jsonEscapeByte_high hb)
  have hascii := ((rewritten_bytes).1 b.toNat b.toNat_lt).1 hb
  rw [UInt8.ofNat_toNat] at hascii
  exact Lib.valid_ascii hascii

theorem valid_jsonEscape {s : Bytes} (h : Lib.Valid s) : Lib.Valid (jsonEscape s) :=
  ((valid_lit _).append (valid_jsonEscapeFragment (valid_cstr h))).append (valid_lit _)

/-- Bytes of characters that are not ASCII. -/
def High (s : Bytes) : Prop := ∀ c ∈ s, 0x80 ≤ c.toNat

theorem High.nulFree {s : Bytes} (h : High s) : NulFree s := by
  rintro c hc rfl
  exact absurd (h 0 hc) (by decide)

theorem entityAt_high {c : UInt8} (h : 0x80 ≤ c.toNat) (s : Bytes) : entityAt (c :: s) = none := by
  unfold entityAt
  rw [List.find?_eq_none]
  intro e he hp
  obtain ⟨r, hr, -⟩ := (headed_entity (List.mem_map_of_mem he)).1
  rw [hr, List.isPrefixOf_cons_cons, Bool.and_eq_true, beq_iff_eq] at hp
  rw [← hp.1] at h
  exact absurd h (by decide)

/-- Bytes that are not ASCII are unescaped to themselves. -/
theorem unescapeFrom_high {h : Bytes} (hh : High h) (t : Bytes) :
    unescapeFrom 0 (h ++ t) = h ++ unescapeFrom 0 t := by
  induction h with
  | nil => rfl
  | cons c h ih =>
    rw [List.cons_append, unescapeFrom_none (entityAt_high (hh c List.mem_cons_self) _),
      ih fun x hx => hh x (List.mem_cons_of_mem c hx)]
    rfl

theorem unescapeFrom_drop (k : Nat) (s : Bytes) : unescapeFrom k s = unescapeFrom 0 (s.drop k) := by
  induction s generalizing k with
  | nil => cases k <;> rfl
  | cons c s ih =>
    cases k with
    | zero => rfl
    | succ k => exact ih k

/-- **Unescaping** a valid text leaves a valid text. -/
theorem valid_unescapeFrom {s : Bytes} (h : Lib.Valid s) : Lib.Valid (unescapeFrom 0 s) := by
  induction hn : s.length using Nat.strong_induction_on generalizing s with
  | _ k ih =>
    cases s with
    | nil => exact valid_nil
    | cons c s =>
      subst hn
      cases hent : entityAt (c :: s) with
      | some e =>
        -- an entity is ASCII, so a character starts behind it
        have he := List.mem_of_find?_eq_some hent
        have hp := List.find?_some hent
        rw [List.isPrefixOf_iff_prefix] at hp
        have hent' : e.1 ∈ dsmlEntities.map Prod.fst := List.mem_map_of_mem he
        have hpos := (headed_entity hent').1.length_pos
        obtain ⟨x, hx⟩ : ∃ x, e.1[e.1.length - 1]? = some x :=
          ⟨_, List.getElem?_eq_getElem (by omega)⟩
        have hlast : (c :: s)[e.1.length - 1]? = some x := by
          obtain ⟨t, ht⟩ := hp
          rw [← ht, List.getElem?_append_left (by omega)]
          exact hx
        have hbound := (h.boundary_of_ascii hlast (entity_ascii hent' (List.mem_of_getElem? hx))).2
        rw [Nat.sub_add_cancel hpos] at hbound
        rw [unescapeFrom_some hent, unescapeFrom_drop]
        have hdrop : s.drop (e.1.length - 1) = (c :: s).drop e.1.length := by
          conv_rhs => rw [← Nat.sub_add_cancel hpos]
          rfl
        rw [hdrop]
        have hshort : ((c :: s).drop e.1.length).length < (c :: s).length := by
          rw [List.length_drop, List.length_cons]
          omega
        have hrest := ih _ hshort hbound.drop rfl
        have hvalue : Lib.Valid [e.2] := by
          apply Lib.valid_ascii
          intro b hb
          rw [List.mem_singleton.mp hb]
          exact (rewritten_bytes).2 e he
        exact hvalue.append hrest
      | none =>
        obtain ⟨n, hchar⟩ := (Lib.boundary_zero h).charAt (Nat.succ_pos _)
        have hpos := hchar.pos
        have hle := hchar.stop.le
        rw [Nat.zero_add] at hle
        have hstop := hchar.stop
        rw [Nat.zero_add] at hstop
        -- the bytes of the first character are kept
        have hkeep : unescapeFrom 0 (c :: s) = (c :: s).take n ++ unescapeFrom 0 ((c :: s).drop n) := by
          by_cases hone : n = 1
          · subst hone
            rw [unescapeFrom_none hent]
            rfl
          · have hhigh : High ((c :: s).take n) := by
              intro x hx
              obtain ⟨i, hi, hget⟩ := List.mem_iff_getElem.mp hx
              rw [List.length_take] at hi
              obtain ⟨y, hy, hge⟩ := hchar.high (by omega) (Nat.zero_le i) (by omega)
              have hxy : ((c :: s).take n)[i]? = some x := by
                rw [List.getElem?_eq_getElem (by rw [List.length_take]; omega), hget]
              rw [Lib.getElem?_take_lt (by omega), hy] at hxy
              rw [← Option.some.inj hxy]
              exact hge
            rw [← unescapeFrom_high hhigh, List.take_append_drop]
        rw [hkeep]
        have hshort : ((c :: s).drop n).length < (c :: s).length := by
          rw [List.length_drop, List.length_cons]
          omega
        exact hstop.take.append (ih _ hshort hstop.drop rfl)

theorem valid_dsmlUnescapeText {s : Bytes} (h : Lib.Valid s) : Lib.Valid (dsmlUnescapeText s) :=
  valid_unescapeFrom (valid_cstr h)

/-- An attribute stands between two quotation marks. -/
theorem valid_dsmlAttr {tag name value : Bytes} (h : Lib.Valid tag)
    (hattr : dsmlAttr tag name = some value) : Lib.Valid value := by
  have hq : ∀ {s : Bytes} {i : Nat} {pat : Bytes}, Lib.Valid s →
      Lib.findSub (pat ++ lit "\"") s = some i →
      Lib.Boundary s (i + pat.length) ∧ Lib.Boundary s (i + pat.length + 1) := by
    intro s i pat hs hfind
    obtain ⟨-, hp, -⟩ := (Lib.findSub_eq_some_iff).mp hfind
    have hone : (lit "\"").length = 1 := by decide
    have hget := (Lib.prefix_drop_iff).mp hp pat.length (by rw [List.length_append]; omega)
    rw [List.getElem?_append_right (Nat.le_refl _), Nat.sub_self] at hget
    exact hs.boundary_of_ascii (x := '"'.toUInt8) hget (by decide)
  unfold dsmlAttr at hattr
  have hpat : name ++ lit "=\"" = (name ++ lit "=") ++ lit "\"" := by
    rw [List.append_assoc]
    rfl
  rw [hpat] at hattr
  dsimp only at hattr
  cases hfind : strstr tag (name ++ lit "=" ++ lit "\"") with
  | none =>
    rw [hfind] at hattr
    exact absurd hattr (by simp)
  | some i =>
    rw [hfind] at hattr
    have hbound := (hq (valid_cstr h) hfind).2
    have hlen : i + (name ++ lit "=" ++ lit "\"").length = i + (name ++ lit "=").length + 1 := by
      rw [@List.length_append _ _ (lit "\"")]
      rfl
    rw [← hlen] at hbound
    dsimp only at hattr
    cases hend : Lib.findSub (lit "\"")
        ((cstr tag).drop (i + (name ++ lit "=" ++ lit "\"").length)) with
    | none =>
      rw [hend] at hattr
      exact absurd hattr (by simp)
    | some q =>
      rw [hend] at hattr
      obtain rfl := Option.some.inj hattr
      have hend' : Lib.findSub ([] ++ lit "\"")
          ((cstr tag).drop (i + (name ++ lit "=" ++ lit "\"").length)) = some q := hend
      have hstop := (hq hbound.drop hend').1
      exact valid_dsmlUnescapeText hstop.take

/-! ### Bytes that are not ASCII -/

theorem High.prefix_escape {h s : Bytes} (hh : High h) (hp : h <+: s) :
    h <+: jsonEscapeFragment s := by
  obtain ⟨t, rfl⟩ := hp
  have hkeep : jsonEscapeFragment h = h := by
    induction h with
    | nil => rfl
    | cons c h ih =>
      have htail := ih fun x hx => hh x (List.mem_cons_of_mem c hx)
      unfold jsonEscapeFragment at htail ⊢
      rw [List.flatMap_cons, jsonEscapeByte_high (hh c List.mem_cons_self), htail]
      rfl
  unfold jsonEscapeFragment at hkeep ⊢
  rw [List.flatMap_append, hkeep]
  exact List.prefix_append _ _

theorem High.prefix_unescape {h s : Bytes} (hh : High h) (hp : h <+: s) :
    h <+: dsmlUnescapeText s := by
  obtain ⟨t, ht⟩ := prefix_cstr hh.nulFree hp
  unfold dsmlUnescapeText
  rw [← ht, unescapeFrom_high hh]
  exact List.prefix_append _ _

namespace StreamApi

variable (api : StreamApi)

theorem valid_argsDelta {text : Bytes} (h : Lib.Valid text) (index : Nat) :
    ValidDeltas (api.argsDelta index text) := by
  unfold argsDelta
  split
  · exact validDeltas_nil
  · exact validDeltas_cons.mpr ⟨api.out_valid _ h, validDeltas_nil⟩

theorem valid_emitValue {text : Bytes} (h : Lib.Valid text) (ts : OpenaiToolStream) :
    ValidDeltas (api.emitValue ts text) := by
  unfold emitValue
  split
  · split
    · exact validDeltas_nil
    · exact api.valid_argsDelta
        (valid_jsonEscapeFragment (valid_cstr (valid_dsmlUnescapeText h))) ts.index
  · exact api.valid_argsDelta h ts.index

theorem valid_emitParamPrefix {name : Bytes} (h : Lib.Valid name) (ts : OpenaiToolStream)
    (isString : Bool) : ValidDeltas (api.emitParamPrefix ts name isString) := by
  apply api.valid_argsDelta
  have hcomma : Lib.Valid (if ts.firstParam then [] else lit ",") := by
    split
    · exact valid_nil
    · exact valid_lit _
  have hquote : Lib.Valid (if isString then lit "\"" else []) := by
    split
    · exact valid_lit _
    · exact valid_nil
  exact ((hcomma.append (valid_jsonEscape h)).append (valid_lit _)).append hquote

theorem begins_argsDelta {h text : Bytes} (hne : h ≠ []) (hnul : NulFree h) (hp : h <+: text)
    (index : Nat) : Begins h (api.argsDelta index text) := by
  unfold argsDelta
  have hnil : text ≠ [] := by
    rintro rfl
    exact hne (List.prefix_nil.mp hp)
  rw [if_neg hnil]
  exact ⟨_, List.mem_singleton_self _, api.out_prefix _ _ hnul hp⟩

/-- The first characters of a value, if they are not ASCII, are sent as they are. -/
theorem begins_emitValue {h text : Bytes} (hne : h ≠ []) (hh : High h) (hp : h <+: text)
    (ts : OpenaiToolStream) : Begins h (api.emitValue ts text) := by
  unfold emitValue
  have hnil : text ≠ [] := by
    rintro rfl
    exact hne (List.prefix_nil.mp hp)
  by_cases hs : ts.paramIsString = true
  · rw [if_pos hs, if_neg hnil]
    apply api.begins_argsDelta hne hh.nulFree
    exact hh.prefix_escape (prefix_cstr hh.nulFree (hh.prefix_unescape hp))
  · rw [if_neg hs]
    exact api.begins_argsDelta hne hh.nulFree hp ts.index

end StreamApi

/-! ### Held bytes -/

variable {full : Bytes} {n rawLen : Nat}

/-- `h` are the first bytes of the character at `pos`, but not all of it. -/
def HeldAt (full : Bytes) (pos : Nat) (h : Bytes) : Prop :=
  ∃ m, Lib.CharAt full pos m ∧ h.length < m ∧ h <+: full.drop pos

theorem HeldAt.boundary {pos : Nat} {h : Bytes} (hh : HeldAt full pos h) : Lib.Boundary full pos := by
  obtain ⟨m, hchar, -, -⟩ := hh
  exact hchar.start

theorem HeldAt.high {pos : Nat} {h : Bytes} (hh : HeldAt full pos h) : High h := by
  obtain ⟨m, hchar, hlt, hp⟩ := hh
  intro x hx
  obtain ⟨i, hi, hget⟩ := List.mem_iff_getElem.mp hx
  obtain ⟨y, hy, hge⟩ := hchar.high (by omega) (Nat.le_add_right pos i) (by omega)
  have hpi := (Lib.prefix_drop_iff).mp hp i hi
  rw [hy, List.getElem?_eq_getElem hi, hget] at hpi
  rw [← Option.some.inj hpi]
  exact hge

/-- The byte at the position is not ASCII. -/
theorem HeldAt.head {pos : Nat} {h : Bytes} (hh : HeldAt full pos h) (hne : h ≠ []) {c : UInt8}
    (hc : full[pos]? = some c) : 0x80 ≤ c.toNat := by
  obtain ⟨m, hchar, hlt, -⟩ := hh
  have hpos := List.length_pos_iff.mpr hne
  obtain ⟨y, hy, hge⟩ := hchar.high (by omega) (Nat.le_refl pos) (by omega)
  rw [hc] at hy
  rw [Option.some.inj hy]
  exact hge

/-- **Held bytes begin** every text that is sent from their position. -/
theorem HeldAt.prefix_slice {pos limit : Nat} {h : Bytes} (hh : HeldAt full pos h)
    (hlimit : Lib.Boundary full limit) (hlt : pos < limit) (hn : limit ≤ n) :
    h <+: slice (full.take n) pos limit := by
  obtain ⟨m, hchar, hshort, hp⟩ := hh
  have hle := hchar.le_of_lt hlimit hlt
  rw [slice_take hn]
  unfold slice
  rw [List.drop_take]
  exact List.prefix_take_iff.mpr ⟨hp, by omega⟩

/-- What `utf8_stream_safe_len` holds back: at most three bytes, the first ones of a character. -/
theorem utf8StreamSafeLen_held (hfull : Lib.Valid full) (hn : n ≤ full.length) {start limit : Nat}
    (hstart : Lib.Boundary full start) (hlimit : limit ≤ n) :
    let cut := utf8StreamSafeLen (full.take n) start limit false
    let h := slice (full.take n) cut limit
    (start ≤ limit → Lib.Boundary full cut ∧ start ≤ cut) ∧ cut ≤ limit ∧ h.length ≤ 3 ∧
      (h ≠ [] → start ≤ cut ∧ cut < limit ∧ HeldAt full cut h) := by
  intro cut h
  have hcut : cut = utf8StreamSafeLen full start limit false := utf8StreamSafeLen_take full start hlimit false
  rcases Nat.lt_or_ge start limit with hlt | hge
  · obtain ⟨b, m, hchar, hsb, hbl, hlm, hval⟩ :=
      utf8StreamSafeLen_char hfull hstart hlt (Nat.le_trans hlimit hn)
    rw [hval] at hcut
    by_cases hin : limit < b + m
    -- the limit is inside the character
    · rw [if_pos hin] at hcut
      have hlen : h.length = limit - b := by
        show (slice (full.take n) cut limit).length = _
        rw [slice_length (by rw [List.length_take]; omega), hcut]
      obtain ⟨x, -, hlead⟩ := hchar.lead
      have hfour := hlead.le_four.2
      refine ⟨fun _ => ⟨hcut ▸ hchar.start, by omega⟩, by omega, by omega, fun _ => ⟨by omega, by omega, ?_⟩⟩
      refine ⟨m, hcut ▸ hchar, by omega, ?_⟩
      show slice (full.take n) cut limit <+: _
      rw [slice_take hlimit]
      unfold slice
      rw [List.drop_take]
      exact List.take_prefix _ _
    · rw [if_neg hin] at hcut
      have hnil : h = [] := slice_self_le (Nat.le_of_eq hcut.symm)
      have heq : limit = b + m := by omega
      refine ⟨fun _ => ⟨?_, by omega⟩, by omega, by rw [hnil]; simp, fun hne => absurd hnil hne⟩
      rw [hcut, heq]
      exact hchar.stop
  -- nothing is released
  · have hval : utf8StreamSafeLen full start limit false = limit := by
      unfold utf8StreamSafeLen
      rw [if_pos (Or.inr hge)]
    rw [hval] at hcut
    have hnil : h = [] := slice_self_le (Nat.le_of_eq hcut.symm)
    refine ⟨fun hle => ?_, by omega, by rw [hnil]; simp, fun hne => absurd hnil hne⟩
    have heq : limit = start := Nat.le_antisymm hge hle
    rw [hcut, heq]
    exact ⟨hstart, Nat.le_refl _⟩

/-- No boundary between the cut and the limit. -/
theorem le_utf8StreamSafeLen (hfull : Lib.Valid full) {start limit r : Nat}
    (hstart : Lib.Boundary full start) (hlimit : limit ≤ full.length) (hr : Lib.Boundary full r)
    (hle : r ≤ limit) (final : Bool) : r ≤ utf8StreamSafeLen full start limit final := by
  by_cases hall : final = true ∨ limit ≤ start
  · unfold utf8StreamSafeLen
    rw [if_pos hall]
    exact hle
  · rw [not_or, Bool.not_eq_true, Nat.not_le] at hall
    obtain ⟨b, m, hchar, -, hbl, hlm, hval⟩ := utf8StreamSafeLen_char hfull hstart hall.2 hlimit
    rw [hall.1, hval]
    by_cases hin : limit < b + m
    · rw [if_pos hin]
      by_contra hlt
      exact hr.not_inside hchar.tail (Nat.not_le.mp hlt) (by omega)
    · rw [if_neg hin]
      exact hle

/-! ### Cuts at ASCII bytes -/

theorem getElem?_of_take {i : Nat} {c : UInt8} (h : (full.take n)[i]? = some c) :
    full[i]? = some c := by
  rw [List.getElem?_take] at h
  split at h
  · exact h
  · exact absurd h (by simp)

/-- What is sent between two boundaries is valid. -/
theorem valid_slice {a b : Nat} (ha : Lib.Boundary full a) (hb : Lib.Boundary full b) (hbn : b ≤ n) :
    Lib.Valid (slice (full.take n) a b) := by
  rcases Nat.le_total a b with hle | hge
  · rw [slice_take hbn]
    exact Lib.Valid.slice ha hb hle
  · rw [slice_self_le hge]
    exact valid_nil

/-- A search up to `rawLen` finds the pattern in the text. -/
theorem findLitBounded_spec {raw : Bytes} {pos i : Nat} {pat : Bytes} (hlen : rawLen ≤ raw.length)
    (hpos : pos ≤ rawLen) (h : findLitBounded raw rawLen pos pat = some i) :
    pos ≤ i ∧ i + pat.length ≤ rawLen ∧ pat <+: raw.drop i := by
  unfold findLitBounded at h
  obtain ⟨j, hj, rfl⟩ := Option.map_eq_some_iff.mp h
  have hfit := Lib.findSub_length_le hj
  rw [slice_length hlen] at hfit
  obtain ⟨-, hp, -⟩ := (Lib.findSub_eq_some_iff).mp hj
  refine ⟨Nat.le_add_right _ _, by omega, ?_⟩
  unfold slice at hp
  rw [List.drop_drop, List.drop_take] at hp
  exact hp.trans (List.take_prefix _ _)

/-- A marker starts with `<`. -/
theorem rawFullLit_head {raw : Bytes} {pos : Nat} {pat : Bytes} {c : UInt8}
    (hpat : Lib.Headed c pat) (h : rawFullLit raw rawLen pos pat = true) : raw[pos]? = some c := by
  unfold rawFullLit at h
  rw [Bool.and_eq_true, List.isPrefixOf_iff_prefix] at h
  exact getElem?_of_take (hpat.head h.2)

/-! ### The tool stream -/

/-- A turn keeps the stream between two characters and sends valid text. -/
def StepKeeps (full : Bytes) : ToolStep → Prop
  | .next ts ds => ToolInv full ts ∧ ValidDeltas ds
  | .stop ts ds => ToolInv full ts ∧ ValidDeltas ds

/-- Where a value may be sent up to, but for an incomplete character. -/
theorem valueHold_le {ts : OpenaiToolStream} (hn : n ≤ full.length) (hlen : rawLen ≤ n)
    (hsyn : ts.syn ∈ dsmlSyntaxes) (hpos : ts.parsePos ≤ rawLen) :
    ts.parsePos ≤ valueHold ts.syn.paramEnd (full.take n) ts.paramIsString ts.parsePos rawLen ∧
      valueHold ts.syn.paramEnd (full.take n) ts.paramIsString ts.parsePos rawLen ≤ rawLen := by
  have hle : rawLen ≤ (full.take n).length := by
    rw [List.length_take]
    omega
  obtain ⟨h1, h2⟩ := valueHold_bounds (headed_paramEnd hsyn) ts.paramIsString hpos hle
  exact ⟨h1, Nat.le_trans h2 (paramHold_spec (headed_paramEnd hsyn) hpos hle).2.1⟩

namespace StreamApi

variable (api : StreamApi) {ts ts' : OpenaiToolStream} {ds : List Delta}

/-- The tag of an invocation or a parameter is valid, and a character starts behind it. -/
theorem valid_tag (hfull : Lib.Valid full) (hn : n ≤ full.length) (hlen : rawLen ≤ n) {pos tagEnd : Nat}
    {pat : Bytes} (hpat : Lib.Headed '<'.toUInt8 pat) (hpos : pos ≤ rawLen)
    (hmark : rawFullLit (full.take n) rawLen pos pat = true)
    (htag : findLitBounded (full.take n) rawLen pos (lit ">") = some tagEnd) :
    Lib.Valid (slice (full.take n) pos (tagEnd + 1)) ∧ Lib.Boundary full (tagEnd + 1) := by
  obtain ⟨-, hfit, hp⟩ := findLitBounded_spec (by rw [List.length_take]; omega) hpos htag
  have hone : (lit ">").length = 1 := by decide
  have hhead := getElem?_of_take (rawFullLit_head hpat hmark)
  have hstart := (hfull.boundary_of_ascii hhead (by decide)).1
  have hget : (full.take n)[tagEnd]? = some '>'.toUInt8 := (Lib.prefix_drop_iff).mp hp 0 (by decide)
  have hstop := (hfull.boundary_of_ascii (getElem?_of_take hget) (by decide)).2
  exact ⟨valid_slice hstart hstop (by omega), hstop⟩

theorem toolBetweenInvokes_keeps (hfull : Lib.Valid full) (hn : n ≤ full.length) (hlen : rawLen ≤ n)
    (hts : ts.syn ∈ dsmlSyntaxes) (hst : ts.state ≠ .paramValue) :
    StepKeeps full (api.toolBetweenInvokes (full.take n) rawLen ts) := by
  have hinv : ∀ ts' : OpenaiToolStream, ts'.syn = ts.syn → ts'.state ≠ .paramValue →
      ToolInv full ts' := fun ts' h h' => ⟨h ▸ hts, fun h'' => absurd h'' h'⟩
  unfold toolBetweenInvokes
  split
  · exact ⟨hinv _ rfl hst, validDeltas_nil⟩
  rename_i hpos
  split
  · exact ⟨hinv _ rfl (by simp), validDeltas_nil⟩
  split
  · exact ⟨hinv _ rfl hst, validDeltas_nil⟩
  split
  · rename_i hmark
    unfold toolStartInvoke
    cases htag : findLitBounded (full.take n) rawLen ts.parsePos (lit ">") with
    | none => exact ⟨hinv _ rfl hst, validDeltas_nil⟩
    | some tagEnd =>
      have hhead := headed_marker hts (m := ts.syn.invokeStart) (by simp [DsmlSyntax.markers])
      obtain ⟨hvalid, -⟩ := valid_tag hfull hn hlen hhead (by omega) hmark htag
      dsimp only
      cases hname : dsmlAttr (slice (full.take n) ts.parsePos (tagEnd + 1)) (lit "name") with
      | none => exact ⟨hinv _ rfl (by simp [OpenaiToolStream.fail]), validDeltas_nil⟩
      | some name =>
        refine ⟨hinv _ rfl (by simp), ?_⟩
        exact validDeltas_cons.mpr ⟨valid_dsmlAttr hvalid hname, api.valid_argsDelta (valid_lit _) _⟩
  · exact ⟨hinv _ rfl (by simp [OpenaiToolStream.fail]), validDeltas_nil⟩

theorem toolBetweenParams_keeps (hfull : Lib.Valid full) (hn : n ≤ full.length) (hlen : rawLen ≤ n)
    (hts : ts.syn ∈ dsmlSyntaxes) (hst : ts.state ≠ .paramValue) :
    StepKeeps full (api.toolBetweenParams (full.take n) rawLen ts) := by
  have hinv : ∀ ts' : OpenaiToolStream, ts'.syn = ts.syn → ts'.state ≠ .paramValue →
      ToolInv full ts' := fun ts' h h' => ⟨h ▸ hts, fun h'' => absurd h'' h'⟩
  unfold toolBetweenParams
  split
  · exact ⟨hinv _ rfl hst, validDeltas_nil⟩
  rename_i hpos
  split
  · refine ⟨hinv _ rfl (by simp), ?_⟩
    split
    · exact api.valid_argsDelta (valid_lit _) _
    · exact validDeltas_nil
  split
  · exact ⟨hinv _ rfl hst, validDeltas_nil⟩
  split
  · rename_i hmark
    unfold toolStartParam
    cases htag : findLitBounded (full.take n) rawLen ts.parsePos (lit ">") with
    | none => exact ⟨hinv _ rfl hst, validDeltas_nil⟩
    | some tagEnd =>
      have hhead := headed_marker hts (m := ts.syn.paramStart) (by simp [DsmlSyntax.markers])
      obtain ⟨hvalid, hstop⟩ := valid_tag hfull hn hlen hhead (by omega) hmark htag
      dsimp only
      cases hname : dsmlAttr (slice (full.take n) ts.parsePos (tagEnd + 1)) (lit "name") with
      | none => exact ⟨hinv _ rfl (by simp [OpenaiToolStream.fail]), validDeltas_nil⟩
      | some name =>
        cases dsmlAttr (slice (full.take n) ts.parsePos (tagEnd + 1)) (lit "string") with
        | none => exact ⟨hinv _ rfl (by simp [OpenaiToolStream.fail]), validDeltas_nil⟩
        | some isString =>
          -- the value starts behind the tag
          exact ⟨⟨hts, fun _ => hstop⟩, api.valid_emitParamPrefix (valid_dsmlAttr hvalid hname) ts _⟩
  · exact ⟨hinv _ rfl (by simp [OpenaiToolStream.fail]), validDeltas_nil⟩

theorem toolParamValue_keeps (hfull : Lib.Valid full) (hn : n ≤ full.length) (hlen : rawLen ≤ n)
    (hts : ToolInv full ts) (hst : ts.state = .paramValue) (hpos : ts.parsePos ≤ rawLen) :
    StepKeeps full (api.toolParamValue (full.take n) rawLen ts) := by
  have hstart := hts.boundary hst
  unfold toolParamValue
  cases hend : findLitBounded (full.take n) rawLen ts.parsePos ts.syn.paramEnd with
  | some valueEnd =>
    obtain ⟨hle, hfit, hp⟩ := findLitBounded_spec (by rw [List.length_take]; omega) hpos hend
    have hget := getElem?_of_take ((headed_paramEnd hts.syn).head hp)
    have hstop := (hfull.boundary_of_ascii hget (by decide)).1
    have hvalue := valid_slice (n := n) hstart hstop (by omega)
    refine ⟨⟨hts.syn, fun h => absurd h (by simp)⟩, validDeltas_append.mpr ⟨?_, ?_⟩⟩
    · split
      · exact api.valid_emitValue hvalue ts
      · exact validDeltas_nil
    · split
      · exact api.valid_argsDelta (valid_lit _) _
      · exact validDeltas_nil
  | none =>
    obtain ⟨hge, hle⟩ := valueHold_le hn hlen hts.syn hpos
    obtain ⟨hcut, hcl, -, -⟩ := utf8StreamSafeLen_held hfull hn hstart (Nat.le_trans hle hlen)
    obtain ⟨hbound, -⟩ := hcut hge
    rw [← safeLen_eq] at hbound hcl
    dsimp only
    split
    · exact ⟨⟨hts.syn, fun _ => hbound⟩, api.valid_emitValue (valid_slice hstart hbound (by omega)) ts⟩
    · exact ⟨hts, validDeltas_nil⟩

/-- **One turn.** -/
theorem toolStep_keeps (hfull : Lib.Valid full) (hn : n ≤ full.length) (hlen : rawLen ≤ n)
    (hts : ToolInv full ts) (hpos : ts.parsePos ≤ rawLen) :
    StepKeeps full (api.toolStep (full.take n) rawLen ts) := by
  unfold toolStep
  cases hst : ts.state with
  | betweenInvokes =>
    have hskip : (ts.skipSpace (full.take n) rawLen).state ≠ .paramValue := by
      show ts.state ≠ _
      rw [hst]
      simp
    exact api.toolBetweenInvokes_keeps hfull hn hlen hts.syn hskip
  | betweenParams =>
    have hskip : (ts.skipSpace (full.take n) rawLen).state ≠ .paramValue := by
      show ts.state ≠ _
      rw [hst]
      simp
    exact api.toolBetweenParams_keeps hfull hn hlen hts.syn hskip
  | paramValue => exact api.toolParamValue_keeps hfull hn hlen hts hst hpos
  | done => exact ⟨hts, validDeltas_nil⟩
  | error => exact ⟨hts, validDeltas_nil⟩

/-- **The loop** sends valid text. -/
theorem toolLoop_keeps (hfull : Lib.Valid full) (hn : n ≤ full.length) (hlen : rawLen ≤ n)
    (hts : ToolInv full ts) (fuel : Nat) :
    ToolInv full (api.toolLoop (full.take n) rawLen fuel ts).1 ∧
      ValidDeltas (api.toolLoop (full.take n) rawLen fuel ts).2 := by
  induction fuel generalizing ts with
  | zero => exact ⟨hts, validDeltas_nil⟩
  | succ fuel ih =>
    unfold toolLoop
    by_cases hgo : (ts.active && decide (ts.parsePos < rawLen)) = true
    · rw [if_pos hgo]
      have hpos := of_decide_eq_true (Bool.and_eq_true_iff.mp hgo).2
      have hstep := api.toolStep_keeps hfull hn hlen hts (Nat.le_of_lt hpos)
      cases hs : api.toolStep (full.take n) rawLen ts with
      | stop ts' ds =>
        rw [hs] at hstep
        exact hstep
      | next ts' ds =>
        rw [hs] at hstep
        obtain ⟨hts', hds⟩ := hstep
        obtain ⟨hrest, hds'⟩ := ih hts'
        exact ⟨hrest, validDeltas_append.mpr ⟨hds, hds'⟩⟩
    · rw [if_neg hgo]
      exact ⟨hts, validDeltas_nil⟩

end StreamApi

end DS4.Server
