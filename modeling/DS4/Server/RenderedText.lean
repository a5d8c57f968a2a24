import DS4.Server.JsonStrings
import DS4.Server.Prompt
import DS4.Server.StreamUtf8

namespace DS4.Server

/-!
# Server — what the parser makes of rendered texts

* `unescapeFrom_attr` — an escaped attribute is read as it was.
* `Guards.close_free` — a protected text does not hold the marker it is protected from.
* `unescape_protect_iff` — **a string parameter** is read as it was just when no entity stands in it.
-/

variable {s t u v close r : Bytes} {c q : UInt8} {k : Nat}

/-! ### Attributes -/

theorem entityAt_plain (hc : c ≠ '&'.toUInt8) (s : Bytes) : entityAt (c :: s) = none := by
  unfold entityAt
  rw [List.find?_eq_none]
  intro e he hp
  obtain ⟨x, hx, -⟩ := (headed_entity (List.mem_map_of_mem he)).1
  rw [hx, List.isPrefixOf_cons_cons, Bool.and_eq_true, beq_iff_eq] at hp
  exact hc hp.1.symm

theorem unescapeFrom_plain (hc : c ≠ '&'.toUInt8) (s : Bytes) : unescapeFrom 0 (c :: s) = c :: unescapeFrom 0 s :=
  unescapeFrom_none (entityAt_plain hc s)

/-- An entity. -/
theorem unescapeFrom_entity {e : Bytes × UInt8} (he : e ∈ dsmlEntities) (s : Bytes) :
    unescapeFrom 0 (e.1 ++ s) = e.2 :: unescapeFrom 0 s := by
  simp only [dsmlEntities, List.mem_cons, List.not_mem_nil, or_false] at he
  rcases he with rfl | rfl | rfl | rfl | rfl
  · rfl
  · rfl
  · rfl
  · rfl
  · rfl

/-- A byte of an attribute is escaped, or stays. -/
theorem attr_byte : ∀ c : UInt8, (∃ e ∈ dsmlEntities, appendDsmlAttrEscaped [c] = e.1 ∧ e.2 = c) ∨
    (c ≠ '&'.toUInt8 ∧ c ≠ '>'.toUInt8 ∧ c ≠ '"'.toUInt8 ∧ appendDsmlAttrEscaped [c] = [c]) :=
  Lib.forall_uint8 (by decide +kernel)

/-- The ends of tags and attributes do not stand in an entity, and it ends with a byte of its own. -/
theorem entity_plain : ∀ e ∈ dsmlEntities, ('>'.toUInt8 ∉ e.1 ∧ '"'.toUInt8 ∉ e.1 ∧ 0 ∉ e.1) ∧
    e.1.reverse.head? = some ';'.toUInt8 ∧ 1 < e.1.length := by
  decide

/-- **An attribute** is read as it was. -/
theorem unescapeFrom_attr (s : Bytes) : unescapeFrom 0 (appendDsmlAttrEscaped s) = s := by
  induction s with
  | nil => rfl
  | cons c s ih =>
    have hcons : appendDsmlAttrEscaped (c :: s) = appendDsmlAttrEscaped [c] ++ appendDsmlAttrEscaped s := by
      unfold appendDsmlAttrEscaped
      rw [List.flatMap_cons, List.flatMap_singleton]
    rw [hcons]
    obtain ⟨e, he, heq, rfl⟩ | ⟨hc, -, -, heq⟩ := attr_byte c
    · rw [heq, unescapeFrom_entity he, ih]
    · rw [heq, List.singleton_append, unescapeFrom_plain hc, ih]

/-- The bytes that end a tag or an attribute do not stand in one. -/
theorem notMem_attr (hc : c = '>'.toUInt8 ∨ c = '"'.toUInt8 ∨ c = 0 ∧ 0 ∉ s) : c ∉ appendDsmlAttrEscaped s := by
  have hbyte : ∀ d : UInt8, '>'.toUInt8 ∉ appendDsmlAttrEscaped [d] ∧ '"'.toUInt8 ∉ appendDsmlAttrEscaped [d] ∧
      (d ≠ 0 → 0 ∉ appendDsmlAttrEscaped [d]) := by
    intro d
    obtain ⟨e, he, heq, -⟩ | ⟨-, hgt, hquote, heq⟩ := attr_byte d
    · obtain ⟨hgt, hquote, hzero⟩ := (entity_plain e he).1
      rw [heq]
      exact ⟨hgt, hquote, fun _ => hzero⟩
    · rw [heq]
      exact ⟨fun h => hgt (List.mem_singleton.mp h).symm, fun h => hquote (List.mem_singleton.mp h).symm,
        fun hd h => hd (List.mem_singleton.mp h).symm⟩
  have hflat : appendDsmlAttrEscaped s = s.flatMap fun d => appendDsmlAttrEscaped [d] := by
    unfold appendDsmlAttrEscaped
    simp only [List.flatMap_singleton]
  rw [hflat]
  intro hmem
  obtain ⟨d, hd, hmem⟩ := List.mem_flatMap.mp hmem
  obtain ⟨hgt, hquote, hzero⟩ := hbyte d
  rcases hc with rfl | rfl | ⟨rfl, hs⟩
  · exact hgt hmem
  · exact hquote hmem
  · exact hzero (fun h0 => hs (h0 ▸ hd)) hmem

/-- An escaped attribute ends with a word of plain bytes when the attribute does. -/
theorem suffix_attr_iff (hu : ∀ x ∈ u, x ≠ ';'.toUInt8 ∧ appendDsmlAttrEscaped [x] = [x]) :
    u <:+ appendDsmlAttrEscaped s ↔ u <:+ s := by
  have hbyte : ∀ b : UInt8, appendDsmlAttrEscaped [b] = [b] ∨
      ((appendDsmlAttrEscaped [b]).reverse.head? = some ';'.toUInt8 ∧ appendDsmlAttrEscaped [b] ≠ [b]) := by
    intro b
    obtain ⟨e, he, heq, -⟩ | ⟨-, -, -, heq⟩ := attr_byte b
    · obtain ⟨-, hlast, hlong⟩ := entity_plain e he
      rw [heq]
      refine Or.inr ⟨hlast, fun hone => ?_⟩
      rw [hone] at hlong
      exact absurd hlong (Nat.lt_irrefl 1)
    · exact Or.inl heq
  have hflat : (appendDsmlAttrEscaped s).reverse = s.reverse.flatMap fun b => (appendDsmlAttrEscaped [b]).reverse := by
    unfold appendDsmlAttrEscaped
    rw [List.reverse_flatMap]
    simp only [List.flatMap_singleton]
    rfl
  rw [← List.reverse_prefix, ← @List.reverse_prefix _ u s, hflat]
  have hrev : ∀ x ∈ u.reverse, x ≠ ';'.toUInt8 ∧ appendDsmlAttrEscaped [x] = [x] := fun x hx =>
    hu x (List.mem_reverse.mp hx)
  generalize u.reverse = w at hrev
  generalize s.reverse = z
  -- from the last byte on
  induction w generalizing z with
  | nil => exact iff_of_true List.nil_prefix List.nil_prefix
  | cons x w ih =>
    obtain ⟨⟨hx, hplain⟩, hw⟩ := List.forall_mem_cons.mp hrev
    cases z with
    | nil => exact Iff.rfl
    | cons b z =>
      rw [List.flatMap_cons, List.cons_prefix_cons]
      rcases hbyte b with heq | ⟨hlast, hne⟩
      · rw [heq, List.reverse_singleton, List.singleton_append, List.cons_prefix_cons]
        exact and_congr_right fun _ => ih hw z
      · refine iff_of_false (fun hp => ?_) fun hp => hne (hp.1 ▸ hplain)
        obtain ⟨y, hy⟩ := List.head?_eq_some_iff.mp hlast
        rw [hy, List.cons_append] at hp
        exact hx (List.cons_prefix_cons.mp hp).1

/-! ### Protected texts -/

/-- A marker that starts with a byte that stands nowhere else in it, and a replacement of that byte that has it not and
    starts with a byte that the marker has not. -/
structure Guards (q d : UInt8) (close r : Bytes) : Prop where
  headed : Lib.Headed q close
  absent : q ∉ r
  foreign : r.head? = some d
  other : d ∉ close

/-- Protecting brings in the bytes of the replacement only. -/
theorem notMem_protect (hs : c ∉ s) (hr : c ∉ r) : c ∉ protectClosing close r s := by
  induction s with
  | nil => exact List.not_mem_nil
  | cons d s ih =>
    obtain ⟨hd, hs⟩ := not_or.mp (mt List.mem_cons.mpr hs)
    rw [protectClosing]
    split
    next => exact fun hmem => (List.mem_append.mp hmem).elim hr (ih hs)
    next => exact fun hmem => (List.mem_cons.mp hmem).elim hd (ih hs)

section

variable {d : UInt8} (h : Guards q d close r)
include h

theorem Guards.protect_at (hat : close <+: c :: s) :
    c = q ∧ protectClosing close r (c :: s) = r ++ protectClosing close r s := by
  obtain ⟨x, rfl, -⟩ := h.headed
  rw [protectClosing, if_pos (List.isPrefixOf_iff_prefix.mpr hat)]
  obtain ⟨y, hy⟩ := hat
  exact ⟨(List.cons.inj hy).1.symm, rfl⟩

omit h in
theorem protect_notAt (hat : ¬ close <+: c :: s) :
    protectClosing close r (c :: s) = c :: protectClosing close r s := by
  rw [protectClosing, if_neg fun hp => hat (List.isPrefixOf_iff_prefix.mp hp)]

/-- What stands in a protected text and has neither byte stood in the text. -/
theorem Guards.of_protect (hq : q ∉ u) (hd : d ∉ u) (hu : u <+: protectClosing close r s) : u <+: s := by
  induction u generalizing s with
  | nil => exact List.nil_prefix
  | cons a u ih =>
    obtain ⟨haq, hq⟩ := not_or.mp (mt List.mem_cons.mpr hq)
    obtain ⟨had, hd⟩ := not_or.mp (mt List.mem_cons.mpr hd)
    cases s with
    | nil => exact absurd (List.prefix_nil.mp hu) (List.cons_ne_nil a u)
    | cons c s =>
      by_cases hat : close <+: c :: s
      · -- it would start with the replacement
        rw [(h.protect_at hat).2] at hu
        obtain ⟨x, hx⟩ := List.head?_eq_some_iff.mp h.foreign
        rw [hx, List.cons_append] at hu
        exact absurd (List.cons_prefix_cons.mp hu).1.symm had
      · rw [protect_notAt hat] at hu
        obtain ⟨rfl, hrest⟩ := List.cons_prefix_cons.mp hu
        exact List.cons_prefix_cons.mpr ⟨rfl, ih hq hd hrest⟩

/-- What stood in a text and has not the byte stands in the protected one. -/
theorem Guards.to_protect (hq : q ∉ u) (v : Bytes) :
    protectClosing close r (u ++ v) = u ++ protectClosing close r v := by
  induction u with
  | nil => rfl
  | cons a u ih =>
    obtain ⟨haq, hq⟩ := not_or.mp (mt List.mem_cons.mpr hq)
    have hat : ¬ close <+: a :: (u ++ v) := fun hat => haq (h.protect_at hat).1.symm
    rw [List.cons_append, protect_notAt hat, ih hq, List.cons_append]

/-- **The marker** does not stand in a protected text. -/
theorem Guards.close_free (s : Bytes) : ¬ close <:+: protectClosing close r s := by
  obtain ⟨x, rfl, hx⟩ := h.headed
  have hdx : d ∉ x := fun hmem => h.other (List.mem_cons_of_mem q hmem)
  have hreplaced : ∀ w v : Bytes, q ∉ w → q :: x <:+: w ++ v → q :: x <:+: v := by
    intro w v hw hin
    induction w with
    | nil => exact hin
    | cons a w ih =>
      obtain ⟨haq, hw⟩ := not_or.mp (mt List.mem_cons.mpr hw)
      rcases List.infix_cons_iff.mp hin with hin | hin
      · exact absurd (List.cons_prefix_cons.mp hin).1 haq
      · exact ih hw hin
  induction s with
  | nil => exact fun hin => absurd (List.infix_nil.mp hin) (List.cons_ne_nil q x)
  | cons c s ih =>
    by_cases hat : q :: x <+: c :: s
    · rw [(h.protect_at hat).2]
      exact fun hin => ih (hreplaced r _ h.absent hin)
    · rw [protect_notAt hat]
      intro hin
      rcases List.infix_cons_iff.mp hin with hin | hin
      · obtain ⟨rfl, hrest⟩ := List.cons_prefix_cons.mp hin
        exact hat (List.cons_prefix_cons.mpr ⟨rfl, h.of_protect hx hdx hrest⟩)
      · exact ih hin

/-- A text without the marker is left as it is, and any other loses the byte. -/
theorem Guards.count_protect (s : Bytes) :
    (¬ close <:+: s → protectClosing close r s = s) ∧
      (protectClosing close r s).count q ≤ s.count q ∧
      (close <:+: s → (protectClosing close r s).count q < s.count q) := by
  obtain ⟨x, hclose, -⟩ := h.headed
  induction s with
  | nil =>
    refine ⟨fun _ => rfl, Nat.le_refl _, fun hin => ?_⟩
    rw [List.infix_nil.mp hin] at hclose
    exact absurd hclose nofun
  | cons c s ih =>
    obtain ⟨hsame, hle, hlt⟩ := ih
    by_cases hat : close <+: c :: s
    · obtain ⟨rfl, heq⟩ := h.protect_at hat
      have hcount : (protectClosing close r (c :: s)).count c < (c :: s).count c := by
        rw [heq, List.count_append, List.count_eq_zero_of_not_mem h.absent, List.count_cons_self]
        omega
      exact ⟨fun hno => absurd hat.isInfix hno, Nat.le_of_lt hcount, fun _ => hcount⟩
    · rw [protect_notAt hat]
      refine ⟨fun hno => ?_, ?_, fun hin => ?_⟩
      · rw [hsame fun hin => hno (hin.trans (List.suffix_cons c s).isInfix)]
      · rw [List.count_cons, List.count_cons]
        omega
      · have hin := (List.infix_cons_iff.mp hin).resolve_left hat
        have := hlt hin
        rw [List.count_cons, List.count_cons]
        omega

end

/-! ### Parameters -/

/-- `append_dsml_parameter_text` and `append_dsml_json_literal` protect the same marker. -/
theorem guards_parameter : Guards '<'.toUInt8 '&'.toUInt8 (lit "</｜DSML｜parameter>") (lit "&lt;") ∧
    Guards '<'.toUInt8 '\\'.toUInt8 (lit "</｜DSML｜parameter>") (lit "\\u003c") := by
  have hheaded : Lib.Headed '<'.toUInt8 (lit "</｜DSML｜parameter>") :=
    Lib.headed_iff.mpr (by decide)
  exact ⟨⟨hheaded, by decide, by decide, by decide⟩, ⟨hheaded, by decide, by decide, by decide⟩⟩

/-- No entity stands in a text. -/
def NoEntity (s : Bytes) : Prop := ∀ e ∈ dsmlEntities, ¬ e.1 <:+: s

instance (s : Bytes) : Decidable (NoEntity s) := inferInstanceAs (Decidable (∀ e ∈ dsmlEntities, ¬ e.1 <:+: s))

/-- An entity at a place, in a text and in the protected one. -/
theorem entityAt_protect {e : Bytes × UInt8} (he : e ∈ dsmlEntities) :
    e.1 <+: c :: appendDsmlParameterText s ↔ e.1 <+: c :: s := by
  obtain ⟨x, hx, hamp⟩ := (headed_entity (List.mem_map_of_mem he)).1
  have hno : ∀ e ∈ dsmlEntities, '<'.toUInt8 ∉ e.1 := by decide
  have hq : '<'.toUInt8 ∉ x := fun hmem => hno e he (hx ▸ List.mem_cons_of_mem _ hmem)
  rw [hx, List.cons_prefix_cons, List.cons_prefix_cons]
  refine and_congr_right fun _ => ⟨(guards_parameter).1.of_protect hq hamp, ?_⟩
  rintro ⟨y, rfl⟩
  have hsplit := (guards_parameter).1.to_protect hq y
  unfold appendDsmlParameterText
  rw [hsplit]
  exact List.prefix_append _ _

/-- **A string parameter** is read as it was if no entity stands in it, and as a shorter one otherwise. -/
theorem unescape_protect (s : Bytes) :
    (NoEntity s → unescapeFrom 0 (appendDsmlParameterText s) = s) ∧
      (unescapeFrom 0 (appendDsmlParameterText s)).length ≤ s.length ∧
      (¬ NoEntity s → (unescapeFrom 0 (appendDsmlParameterText s)).length < s.length) := by
  induction hn : s.length using Nat.strong_induction_on generalizing s with
  | _ n ih =>
    subst hn
    cases s with
    | nil =>
      have hempty : NoEntity [] := by decide
      exact ⟨fun _ => rfl, Nat.le_refl _, fun hno => absurd hempty hno⟩
    | cons c s =>
      obtain ⟨hsame, hle, hlt⟩ := ih s.length (Nat.lt_succ_self _) s rfl
      -- a byte that no entity starts at
      have hbyte : (∀ e ∈ dsmlEntities, ¬ e.1 <+: c :: s) →
          unescapeFrom 0 (appendDsmlParameterText (c :: s)) = c :: unescapeFrom 0 (appendDsmlParameterText s) →
          (NoEntity (c :: s) → unescapeFrom 0 (appendDsmlParameterText (c :: s)) = c :: s) ∧
            (unescapeFrom 0 (appendDsmlParameterText (c :: s))).length ≤ (c :: s).length ∧
            (¬ NoEntity (c :: s) → (unescapeFrom 0 (appendDsmlParameterText (c :: s))).length < (c :: s).length) := by
        intro hhead heq
        have hiff : NoEntity (c :: s) ↔ NoEntity s := by
          refine forall₂_congr fun e he => not_congr ?_
          exact List.infix_cons_iff.trans (or_iff_right (hhead e he))
        rw [heq, hiff, List.length_cons, List.length_cons]
        exact ⟨fun hno => by rw [hsame hno], Nat.succ_le_succ hle, fun hno => Nat.succ_lt_succ (hlt hno)⟩
      by_cases hat : lit "</｜DSML｜parameter>" <+: c :: s
      · obtain ⟨hc, heq⟩ := (guards_parameter).1.protect_at hat
        have hlt : (lit "&lt;", '<'.toUInt8) ∈ dsmlEntities := by decide
        refine hbyte (fun e he hp => ?_) ?_
        · obtain ⟨x, hx, -⟩ := (headed_entity (List.mem_map_of_mem he)).1
          rw [hx, hc] at hp
          exact absurd (List.cons_prefix_cons.mp hp).1 (by decide)
        · unfold appendDsmlParameterText
          rw [heq, hc]
          exact unescapeFrom_entity hlt _
      · have heq : appendDsmlParameterText (c :: s) = c :: appendDsmlParameterText s := protect_notAt hat
        cases hent : entityAt (c :: appendDsmlParameterText s) with
        | none =>
          refine hbyte (fun e he hp => ?_) ?_
          · unfold entityAt at hent
            rw [List.find?_eq_none] at hent
            exact hent e he (List.isPrefixOf_iff_prefix.mpr ((entityAt_protect he).mpr hp))
          · rw [heq, unescapeFrom_none hent]
        | some e =>
          have he := List.mem_of_find?_eq_some hent
          have hp := List.find?_some hent
          rw [List.isPrefixOf_iff_prefix, entityAt_protect he] at hp
          obtain ⟨y, hy⟩ := hp
          have hbytes : ∀ e ∈ dsmlEntities, '<'.toUInt8 ∉ e.1 ∧ 1 < e.1.length := by decide
          obtain ⟨hno, hlong⟩ := hbytes e he
          have hprotect : appendDsmlParameterText (e.1 ++ y) = e.1 ++ appendDsmlParameterText y :=
            (guards_parameter).1.to_protect hno y
          have hlen := congrArg List.length hy
          rw [List.length_append] at hlen
          have hshort := (ih y.length (by omega) y rfl).2.1
          have hless : (unescapeFrom 0 (appendDsmlParameterText (c :: s))).length < (c :: s).length := by
            rw [← hy, hprotect, unescapeFrom_entity he, List.length_cons, List.length_append]
            omega
          refine ⟨fun hno => ?_, Nat.le_of_lt hless, fun _ => hless⟩
          exact absurd ⟨[], y, by rw [List.nil_append]; exact hy⟩ (hno e he)

/-- **A string parameter** is read as it was just when no entity stands in it. -/
theorem unescape_protect_iff (h : 0 ∉ s) : dsmlUnescapeText (appendDsmlParameterText s) = s ↔ NoEntity s := by
  have hzero : 0 ∉ appendDsmlParameterText s := notMem_protect h (by decide)
  unfold dsmlUnescapeText
  rw [cstr_eq_self hzero]
  obtain ⟨hsame, -, hlt⟩ := unescape_protect s
  refine ⟨fun heq => ?_, hsame⟩
  by_contra hno
  have hless := hlt hno
  rw [heq] at hless
  exact absurd hless (Nat.lt_irrefl _)

end DS4.Server
