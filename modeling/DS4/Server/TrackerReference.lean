import DS4.Server.TrackerChunks

namespace DS4.Server

/-!
# Server — the DSML tracker and the reference recognizer

The reference recognizer scans a JSON value twice: once for an end tag outside JSON strings, then
for the first end tag of all.  Where the second is not the first, inside a string of the value, it
goes on from the wrong place.  Apart from that both recognizers classify a text the same way.

* `value_run` — how a value ends: with an end tag, with the beginning of one, or not at all.
* `scan_eq_track` — the two recognizers, tag by tag.
* `tracker_incremental` — prefixes, the whole text and the reference.
-/

/-- In a JSON value that ends, the end tag is the first one: none stands inside a string. -/
def JsonEndsFirst (s : Bytes) : Prop :=
  ∀ syn p v e, InBlock s syn p → ParamTag s syn p v false → JsonOpen s syn v e →
    (jsonFlags s v e).inString = false → EndTagAt s syn e →
    ∀ j, v ≤ j → j < e → ¬ syn.paramEnd <+: s.drop j

section Values

variable {s : Bytes} {syn : DsmlSyntax}

theorem paramEnd_not_begun (hsyn : syn ∈ dsmlSyntaxes) {e j : Nat}
    (h : Lib.Partial syn.paramEnd s e) (hj : e ≤ j) : ¬ syn.paramEnd <+: s.drop j := by
  intro hp
  have hlen := hp.length_le
  rw [List.length_drop] at hlen
  have := h.2.1
  have := paramEnd_pos hsyn
  omega

/-- A proper beginning of an end tag has no `>` and no quote. -/
theorem partial_plain (hsyn : syn ∈ dsmlSyntaxes) {e k : Nat} (h : Lib.Partial syn.paramEnd s e)
    (hk : e ≤ k) {c : UInt8} (hc : s[k]? = some c) : c ≠ '>'.toUInt8 ∧ c ≠ '"'.toUInt8 := by
  have hall : ∀ syn ∈ dsmlSyntaxes, ∀ c ∈ syn.paramEnd.dropLast,
      c ≠ '>'.toUInt8 ∧ c ≠ '"'.toUInt8 := by decide +kernel
  obtain ⟨hlt, -⟩ := List.getElem?_eq_some_iff.mp hc
  have hget := (Lib.drop_prefix_iff).mp h.2.2 (k - e) (by omega)
  rw [show e + (k - e) = k by omega, hc] at hget
  have hshort := h.2.1
  apply hall syn hsyn c
  apply List.mem_of_getElem? (i := k - e)
  rw [List.getElem?_dropLast, if_pos (by omega)]
  exact hget

/-- **The end of a text**: a suffix that begins an end tag. -/
theorem suffixPartial_iff (hsyn : syn ∈ dsmlSyntaxes) :
    rawSuffixPartialLit s syn.paramEnd 2 = true ↔
      ∃ j, j + 2 ≤ s.length ∧ Lib.Partial syn.paramEnd s j := by
  have hpos := paramEnd_pos hsyn
  unfold rawSuffixPartialLit
  rw [List.any_eq_true]
  constructor
  · rintro ⟨n, hn, h⟩
    rw [Bool.and_eq_true, decide_eq_true_eq, beq_iff_eq] at h
    obtain ⟨htwo, heq⟩ := h
    have hn := List.mem_range.mp hn
    have hbound : n ≤ s.length ∧ n < syn.paramEnd.length := by
      split at hn <;> omega
    refine ⟨s.length - n, by omega, by omega, by omega, ?_⟩
    rw [heq]
    exact List.take_prefix _ _
  · rintro ⟨j, htwo, hlt, hshort, hpre⟩
    refine ⟨s.length - j, List.mem_range.mpr ?_, ?_⟩
    · split <;> omega
    · rw [Bool.and_eq_true, decide_eq_true_eq, beq_iff_eq]
      refine ⟨by omega, ?_⟩
      rw [show s.length - (s.length - j) = j by omega]
      have := List.prefix_iff_eq_take.mp hpre
      rwa [List.length_drop] at this

/-- The byte before a value is the `>` of its tag. -/
theorem ParamTag.before {p v : Nat} {str : Bool} (h : ParamTag s syn p v str) :
    ∃ e, v = e + 1 ∧ s[e]? = some '>'.toUInt8 ∧ v ≤ s.length := by
  obtain ⟨e, he, rfl⟩ := h.tagEnd
  have htake : s.take s.length = s := List.take_length
  have hiff := @findLit_eq_some_iff s (lit ">") s.length p e (by decide) (le_refl _)
  rw [htake] at hiff
  obtain ⟨⟨-, hpre, hfit⟩, -⟩ := hiff.mp he
  have hget := (Lib.prefix_drop_iff).mp hpre 0 (by decide)
  exact ⟨e, rfl, hget, hfit⟩

/-- A beginning of an end tag at the end of a text lies in the value. -/
theorem ParamTag.le_begun {p v j : Nat} {str : Bool} (h : ParamTag s syn p v str)
    (hsyn : syn ∈ dsmlSyntaxes) (hj : Lib.Partial syn.paramEnd s j) : v ≤ j := by
  by_contra hlt
  obtain ⟨e, rfl, hget, -⟩ := h.before
  exact (partial_plain hsyn hj (by omega) hget).1 rfl

/-! ### JSON strings -/

theorem JsonFlags.next_plain (f : JsonFlags) {c : UInt8} (hc : c ≠ '"'.toUInt8) :
    (f.next c).inString = f.inString := by
  unfold JsonFlags.next
  split
  · next h =>
    split
    · rfl
    · split
      · rfl
      · rfl
  · rfl

/-- A beginning of an end tag opens and closes no string. -/
theorem jsonFlags_begun (hsyn : syn ∈ dsmlSyntaxes) {v e k : Nat}
    (h : Lib.Partial syn.paramEnd s e) (hve : v ≤ e) (hek : e ≤ k) (hk : k ≤ s.length) :
    (jsonFlags s v k).inString = (jsonFlags s v e).inString := by
  induction k, hek using Nat.le_induction with
  | base => rfl
  | succ k hek ih =>
    have hget : s[k]? = some (s.getD k 0) := by
      rw [List.getD_eq_getElem?_getD, List.getElem?_eq_getElem hk, Option.getD_some]
    rw [jsonFlags_succ (le_trans hve hek) hk, JsonFlags.next_plain _ (partial_plain hsyn h hek hget).2]
    exact ih (by omega)

end Values

/-! ### How a value ends -/

section ValueRuns

variable {s : Bytes} {syn : DsmlSyntax} {p v : Nat} {str : Bool}

/-- An end tag at `j` would close the value. -/
def Outside (s : Bytes) (v : Nat) (str : Bool) (j : Nat) : Prop :=
  str = true ∨ (jsonFlags s v j).inString = false

/-- Nothing from `v` up to `e` closes the value. -/
def Clear (s : Bytes) (syn : DsmlSyntax) (v : Nat) (str : Bool) (e : Nat) : Prop :=
  ∀ j, v ≤ j → j < e → Outside s v str j → ¬ EndTagAt s syn j

/-- The tracker at `pos`, inside the value that starts at `v`. -/
def valuePos (s : Bytes) (syn : DsmlSyntax) (v : Nat) (str : Bool) (pos : Nat) : TrackPos :=
  if str then ⟨.stringBody syn, pos⟩ else ⟨.jsonParam syn (jsonFlags s v pos), pos⟩

/-- What the tracker says at the end of a text, inside a value. -/
def openState (s : Bytes) (v : Nat) (str : Bool) : DecodeState :=
  if str then .stringBody
  else if (jsonFlags s v s.length).inString then .jsonString else .jsonStructural

theorem Clear.jsonOpen {e : Nat} (h : Clear s syn v false e) (hve : v ≤ e) :
    JsonOpen s syn v e := by
  refine ⟨hve, fun j hj hje hpre => ?_⟩
  by_contra hout
  rw [Bool.not_eq_true] at hout
  exact h j hj hje (Or.inr hout) (Or.inl hpre)

theorem Clear.stringOpen {e : Nat} (h : Clear s syn v true e) (hve : v ≤ e) :
    StringOpen s syn v e :=
  ⟨hve, fun j hj hje hpre => h j hj hje (Or.inl rfl) (Or.inl hpre)⟩

theorem Clear.tracks {e : Nat} (hb : InBlock s syn p) (tag : ParamTag s syn p v str)
    (h : Clear s syn v str e) (hve : v ≤ e) : Tracks s (valuePos s syn v str e) := by
  cases str with
  | true => exact .stringBody hb tag (h.stringOpen hve)
  | false => exact .jsonParam hb tag (h.jsonOpen hve)

/-- A value ends at the first end tag, or beginning of one, outside strings, or not at all. -/
theorem value_ends (s : Bytes) (syn : DsmlSyntax) (v : Nat) (str : Bool) :
    (∃ e, v ≤ e ∧ Outside s v str e ∧ EndTagAt s syn e ∧ Clear s syn v str e) ∨
      ∀ e, Clear s syn v str e := by
  by_cases hex : ∃ e, v ≤ e ∧ Outside s v str e ∧ EndTagAt s syn e
  · left
    classical
    obtain ⟨hve, hout, hend⟩ := Nat.find_spec hex
    refine ⟨Nat.find hex, hve, hout, hend, fun j hj hje hout' hend' => ?_⟩
    exact Nat.find_min hex hje ⟨hj, hout', hend'⟩
  · right
    intro e j hj _ hout hend
    exact hex ⟨j, hj, hout, hend⟩

theorem endTag_le {e : Nat} (hsyn : syn ∈ dsmlSyntaxes) (h : EndTagAt s syn e) :
    e + 2 ≤ s.length := by
  obtain hfull | hpart := h
  · have hlen := hfull.length_le
    have := paramEnd_long hsyn
    rw [List.length_drop] at hlen
    omega
  · exact hpart.1

/-- A byte that closes nothing is stepped over. -/
theorem value_step (hsyn : syn ∈ dsmlSyntaxes) {pos : Nat} (hv : v ≤ pos) (hpos : pos < s.length)
    (h : Outside s v str pos → ¬ EndTagAt s syn pos) :
    trackStep s s.length (valuePos s syn v str pos) = .next (valuePos s syn v str (pos + 1)) := by
  cases str with
  | true =>
    obtain ⟨h1, h2⟩ := whole_no_endTag hsyn (h (Or.inl rfl))
    show trackStringBody s s.length pos syn = _
    rw [trackStringBody, if_pos hpos, if_neg h1, if_neg h2]
    rfl
  | false =>
    show trackJsonParam s s.length pos syn (jsonFlags s v pos) =
      .next ⟨.jsonParam syn (jsonFlags s v (pos + 1)), pos + 1⟩
    rw [trackJsonParam, if_pos hpos, jsonFlags_succ hv hpos]
    cases hout : (jsonFlags s v pos).inString with
    | true => rfl
    | false =>
      obtain ⟨h1, h2⟩ := whole_no_endTag hsyn (h (Or.inr hout))
      rw [Bool.not_false, Bool.true_and, Bool.true_and, if_neg h1, if_neg h2]

/-- The tracker reaches the place where the value ends. -/
theorem value_run (hb : InBlock s syn p) (tag : ParamTag s syn p v str) {e : Nat} (hve : v ≤ e)
    (he : e ≤ s.length) (h : Clear s syn v str e) :
    trackRun s (valuePos s syn v str v) = trackRun s (valuePos s syn v str e) := by
  induction e, hve using Nat.le_induction with
  | base => rfl
  | succ e hve ih =>
    have hclear : Clear s syn v str e := fun j hj hje => h j hj (by omega)
    have htracks := hclear.tracks hb tag hve
    rw [ih (by omega) hclear]
    apply trackRun_next htracks
    · cases str <;> exact le_trans (Nat.le_succ e) he
    · exact value_step hb.known hve he (h e hve (Nat.lt_succ_self e))

/-- A full end tag is stepped over, … -/
theorem value_closed (hsyn : syn ∈ dsmlSyntaxes) {e : Nat} (hout : Outside s v str e)
    (hend : syn.paramEnd <+: s.drop e) :
    trackStep s s.length (valuePos s syn v str e) =
      .next ⟨.structural syn, e + syn.paramEnd.length⟩ := by
  have hlt : e < s.length := by
    have := endTag_le hsyn (Or.inl hend)
    omega
  have hfull := (fullLit_whole_iff (paramEnd_pos hsyn)).mpr hend
  cases str with
  | true =>
    show trackStringBody s s.length e syn = _
    rw [trackStringBody, if_pos hlt, if_pos hfull]
  | false =>
    obtain hout | hout := hout
    · exact absurd hout (by simp)
    · show trackJsonParam s s.length e syn (jsonFlags s v e) = _
      rw [trackJsonParam, if_pos hlt, hout, hfull]
      rfl

/-- … the beginning of one is waited for, … -/
theorem value_begun (hsyn : syn ∈ dsmlSyntaxes) {e : Nat} (hout : Outside s v str e)
    (htwo : e + 2 ≤ s.length) (hend : Lib.Partial syn.paramEnd s e) :
    (trackRun s (valuePos s syn v str e)).decode = .structural := by
  have htake : s.take s.length = s := List.take_length
  have hfull : ¬ rawFullLit s s.length e syn.paramEnd = true := by
    intro hfull
    exact paramEnd_not_begun hsyn hend (le_refl e)
      ((fullLit_whole_iff (paramEnd_pos hsyn)).mp hfull)
  have hpart : rawPartialLitMin s s.length e syn.paramEnd 2 = true := by
    have hshort := hend.2.1
    have hiff := @partialMin_iff s syn.paramEnd s.length e
    rw [htake] at hiff
    exact hiff.mpr ⟨htwo, by omega, hend.2.2⟩
  cases str with
  | true =>
    have hstep : trackStep s s.length (valuePos s syn v true e) =
        .stop ⟨.stringBody syn, e⟩ .structural := by
      show trackStringBody s s.length e syn = _
      rw [trackStringBody, if_pos hend.1, if_neg hfull, if_pos hpart]
    rw [trackRun_stop hstep]
  | false =>
    obtain hout | hout := hout
    · exact absurd hout (by simp)
    · have hstep : trackStep s s.length (valuePos s syn v false e) =
          .stop ⟨.jsonParam syn (jsonFlags s v e), e⟩ .structural := by
        show trackJsonParam s s.length e syn (jsonFlags s v e) = _
        rw [trackJsonParam, if_pos hend.1, hout, Bool.not_false, Bool.true_and, Bool.true_and,
          if_neg hfull, if_pos hpart]
      rw [trackRun_stop hstep]

/-- … and at the end of the text the value is still open. -/
theorem value_open : (trackRun s (valuePos s syn v str s.length)).decode = openState s v str := by
  cases str with
  | true =>
    have hstep : trackStep s s.length (valuePos s syn v true s.length) =
        .stop ⟨.stringBody syn, s.length⟩ .stringBody := by
      show trackStringBody s s.length s.length syn = _
      rw [trackStringBody, if_neg (Nat.lt_irrefl _)]
    rw [trackRun_stop hstep]
    rfl
  | false =>
    have hstep : trackStep s s.length (valuePos s syn v false s.length) =
        .stop ⟨.jsonParam syn (jsonFlags s v s.length), s.length⟩
          (if (jsonFlags s v s.length).inString then .jsonString else .jsonStructural) := by
      show trackJsonParam s s.length s.length syn (jsonFlags s v s.length) = _
      rw [trackJsonParam, if_neg (Nat.lt_irrefl _)]
    rw [trackRun_stop hstep]
    rfl

end ValueRuns

/-! ### The reference on a value -/

section Scans

variable {s : Bytes} {syn : DsmlSyntax} {p v : Nat} {str : Bool}

/-- The reference scan steps over what is no end tag outside a string. -/
theorem scanJson_step {pos : Nat} (hv : v ≤ pos) (hpos : pos < s.length)
    (h : (jsonFlags s v pos).inString = false → ¬ syn.paramEnd <+: s.drop pos) :
    dsmlDecodeScanJsonParam s syn (jsonFlags s v pos) (s.drop pos) =
      dsmlDecodeScanJsonParam s syn (jsonFlags s v (pos + 1)) (s.drop (pos + 1)) := by
  have hdrop : s.drop pos = s.getD pos 0 :: s.drop (pos + 1) := by
    rw [List.drop_eq_getElem_cons hpos, List.getD_eq_getElem?_getD, List.getElem?_eq_getElem hpos,
      Option.getD_some]
  have hno : ¬ (!(jsonFlags s v pos).inString &&
      syn.paramEnd.isPrefixOf (s.getD pos 0 :: s.drop (pos + 1))) = true := by
    rw [Bool.and_eq_true, Bool.not_eq_true', ← hdrop, List.isPrefixOf_iff_prefix, not_and]
    exact h
  rw [hdrop, dsmlDecodeScanJsonParam, if_neg hno, ← jsonFlags_succ hv hpos]

theorem scanJson_run {e : Nat} (hve : v ≤ e) (he : e ≤ s.length) {pos : Nat} (hv : v ≤ pos)
    (hpos : pos ≤ e) (h : ∀ j, pos ≤ j → j < e → (jsonFlags s v j).inString = false →
      ¬ syn.paramEnd <+: s.drop j) :
    dsmlDecodeScanJsonParam s syn (jsonFlags s v pos) (s.drop pos) =
      dsmlDecodeScanJsonParam s syn (jsonFlags s v e) (s.drop e) := by
  induction e, hpos using Nat.le_induction with
  | base => rfl
  | succ e hpe ih =>
    rw [ih (by omega) (by omega) fun j hj hje => h j hj (by omega)]
    exact scanJson_step (by omega) he (h e hpe (Nat.lt_succ_self e))

/-- The first end tag of all, when none precedes `e`. -/
theorem findEnd_closed (hsyn : syn ∈ dsmlSyntaxes) {e : Nat} (hve : v ≤ e)
    (hend : syn.paramEnd <+: s.drop e) (h : ∀ j, v ≤ j → j < e → ¬ syn.paramEnd <+: s.drop j) :
    findLitBounded s s.length v syn.paramEnd = some e := by
  have hiff := @findLit_eq_some_iff s syn.paramEnd s.length v e (paramEnd_pos hsyn) (le_refl _)
  rw [List.take_length] at hiff
  have hlen := hend.length_le
  rw [List.length_drop] at hlen
  have := paramEnd_pos hsyn
  exact hiff.mpr ⟨⟨hve, hend, by omega⟩, h⟩

theorem findEnd_none (hsyn : syn ∈ dsmlSyntaxes)
    (h : ∀ j, v ≤ j → ¬ syn.paramEnd <+: s.drop j) :
    findLitBounded s s.length v syn.paramEnd = none := by
  have hiff := @findLit_eq_none_iff s syn.paramEnd s.length v (paramEnd_pos hsyn) (le_refl _)
  rw [List.take_length] at hiff
  exact hiff.mpr fun q hq _ => h q hq

/-- No suffix begins an end tag, when nothing closes the value. -/
theorem suffixPartial_open (hsyn : syn ∈ dsmlSyntaxes) (tag : ParamTag s syn p v str)
    (hclear : ∀ e, Clear s syn v str e) (hout : Outside s v str s.length) :
    rawSuffixPartialLit s syn.paramEnd 2 = false := by
  rw [Bool.eq_false_iff]
  intro hsuffix
  obtain ⟨j, htwo, hj⟩ := (suffixPartial_iff hsyn).mp hsuffix
  have hvj := tag.le_begun hsyn hj
  refine hclear (j + 1) j hvj (Nat.lt_succ_self j) ?_ (Or.inr ⟨htwo, hj⟩)
  obtain hstr | hflags := hout
  · exact Or.inl hstr
  · right
    rw [← jsonFlags_begun hsyn hj hvj (le_of_lt hj.1) (le_refl _)]
    exact hflags

theorem jsonFlags_start (s : Bytes) (v : Nat) :
    dsmlDecodeScanJsonParam s syn .start (s.drop v) =
      dsmlDecodeScanJsonParam s syn (jsonFlags s v v) (s.drop v) := by
  rw [jsonFlags_self]

/-- A string value, as the reference sees it. -/
theorem scanString (hsyn : syn ∈ dsmlSyntaxes) (tag : ParamTag s syn p v true) :
    (∃ e, v ≤ e ∧ syn.paramEnd <+: s.drop e ∧ Clear s syn v true e ∧
      scanParamValue s syn v true = .next (e + syn.paramEnd.length)) ∨
    (∃ e, v ≤ e ∧ e + 2 ≤ s.length ∧ Lib.Partial syn.paramEnd s e ∧ Clear s syn v true e ∧
      scanParamValue s syn v true = .stop .structural) ∨
    ((∀ e, Clear s syn v true e) ∧ scanParamValue s syn v true = .stop (openState s v true)) := by
  have hplain : ∀ e, Clear s syn v true e → ∀ j, v ≤ j → j < e → ¬ syn.paramEnd <+: s.drop j :=
    fun e hclear j hj hje hpre => hclear j hj hje (Or.inl rfl) (Or.inl hpre)
  unfold scanParamValue
  rw [if_pos rfl]
  obtain ⟨e, hve, -, hend | ⟨htwo, hend⟩, hclear⟩ | hclear := value_ends s syn v true
  · left
    refine ⟨e, hve, hend, hclear, ?_⟩
    rw [findEnd_closed hsyn hve hend (hplain e hclear)]
  · right; left
    refine ⟨e, hve, htwo, hend, hclear, ?_⟩
    have hnone : findLitBounded s s.length v syn.paramEnd = none := by
      apply findEnd_none hsyn
      intro j hj
      by_cases hje : j < e
      · exact hplain e hclear j hj hje
      · exact paramEnd_not_begun hsyn hend (by omega)
    rw [hnone]
    exact if_pos ((suffixPartial_iff hsyn).mpr ⟨e, htwo, hend⟩)
  · right; right
    refine ⟨hclear, ?_⟩
    have hnone : findLitBounded s s.length v syn.paramEnd = none :=
      findEnd_none hsyn fun j hj => hplain (j + 1) (hclear (j + 1)) j hj (Nat.lt_succ_self j)
    rw [hnone]
    have hsuffix := suffixPartial_open hsyn tag hclear (Or.inl rfl)
    exact if_neg (by simp [hsuffix])

/-- A JSON value, as the reference sees it, when its end tag is the first one. -/
theorem scanJson (hb : InBlock s syn p) (tag : ParamTag s syn p v false) (hfirst : JsonEndsFirst s) :
    (∃ e, v ≤ e ∧ (jsonFlags s v e).inString = false ∧ syn.paramEnd <+: s.drop e ∧
      Clear s syn v false e ∧ scanParamValue s syn v false = .next (e + syn.paramEnd.length)) ∨
    (∃ e, v ≤ e ∧ (jsonFlags s v e).inString = false ∧ e + 2 ≤ s.length ∧
      Lib.Partial syn.paramEnd s e ∧ Clear s syn v false e ∧
      scanParamValue s syn v false = .stop .structural) ∨
    ((∀ e, Clear s syn v false e) ∧
      scanParamValue s syn v false = .stop (openState s v false)) := by
  have hsyn := hb.known
  have hv : v ≤ s.length := by
    obtain ⟨e, -, -, hle⟩ := tag.before
    exact hle
  have hplain : ∀ e, Clear s syn v false e → ∀ j, v ≤ j → j < e →
      (jsonFlags s v j).inString = false → ¬ syn.paramEnd <+: s.drop j :=
    fun e hclear j hj hje hout hpre => hclear j hj hje (Or.inr hout) (Or.inl hpre)
  unfold scanParamValue
  rw [if_neg (by simp)]
  dsimp only
  rw [jsonFlags_start]
  obtain ⟨e, hve, hout, hend, hclear⟩ | hclear := value_ends s syn v false
  · obtain hout | hout := hout
    · exact absurd hout (by simp)
    have hnone := hfirst syn p v e hb tag (hclear.jsonOpen hve) hout hend
    have hle := endTag_le hsyn hend
    rw [scanJson_run hve (by omega) (le_refl v) hve (hplain e hclear)]
    obtain hend | ⟨htwo, hend⟩ := hend
    · left
      refine ⟨e, hve, hout, hend, hclear, ?_⟩
      -- the first scan finds the end tag, and so does the second
      have hscan : dsmlDecodeScanJsonParam s syn (jsonFlags s v e) (s.drop e) = .structural := by
        have hdrop : s.drop e = s.getD e 0 :: s.drop (e + 1) := by
          rw [List.drop_eq_getElem_cons (by omega), List.getD_eq_getElem?_getD,
            List.getElem?_eq_getElem (by omega), Option.getD_some]
        rw [hdrop, dsmlDecodeScanJsonParam, if_pos]
        rw [hout, ← hdrop, Bool.not_false, Bool.true_and, List.isPrefixOf_iff_prefix]
        exact hend
      rw [hscan, if_pos rfl, findEnd_closed hsyn hve hend hnone]
    · right; left
      refine ⟨e, hve, hout, htwo, hend, hclear, ?_⟩
      have hflags := jsonFlags_begun hsyn hend hve (le_of_lt hend.1) (le_refl _)
      have hscan : dsmlDecodeScanJsonParam s syn (jsonFlags s v e) (s.drop e) = .structural := by
        rw [scanJson_run (le_trans hve (le_of_lt hend.1)) (le_refl _) hve (le_of_lt hend.1)
          fun j hj _ _ => paramEnd_not_begun hsyn hend hj, List.drop_length,
          dsmlDecodeScanJsonParam, if_pos]
        rw [hflags, hout, (suffixPartial_iff hsyn).mpr ⟨e, htwo, hend⟩]
        rfl
      have hnone' : findLitBounded s s.length v syn.paramEnd = none := by
        apply findEnd_none hsyn
        intro j hj
        by_cases hje : j < e
        · exact hnone j hj hje
        · exact paramEnd_not_begun hsyn hend (by omega)
      rw [hscan, if_pos rfl, hnone']
  · right; right
    refine ⟨hclear, ?_⟩
    have hscan : dsmlDecodeScanJsonParam s syn (jsonFlags s v v) (s.drop v) =
        openState s v false := by
      rw [scanJson_run hv (le_refl _) (le_refl v) hv (hplain s.length (hclear _)),
        List.drop_length, dsmlDecodeScanJsonParam]
      have hno : ¬ (!(jsonFlags s v s.length).inString &&
          rawSuffixPartialLit s syn.paramEnd 2) = true := by
        cases hout : (jsonFlags s v s.length).inString with
        | true => simp
        | false =>
          rw [suffixPartial_open hsyn tag hclear (Or.inr hout)]
          simp
      rw [if_neg hno]
      rfl
    have hne : ¬ openState s v false = .structural := by
      unfold openState
      rw [if_neg (by simp)]
      split <;> simp
    rw [hscan, if_neg hne]

end Scans

/-! ### The two recognizers -/

section Agree

variable {s : Bytes} {syn : DsmlSyntax} {p v pos : Nat} {str : Bool}

theorem endTag_fits (hend : syn.paramEnd <+: s.drop pos) (hpos : pos < s.length) :
    pos + syn.paramEnd.length ≤ s.length := by
  have hlen := hend.length_le
  rw [List.length_drop] at hlen
  omega

/-- **Values.** Both recognizers go on behind the value, or stop with the same answer. -/
theorem value_agrees (hb : InBlock s syn p) (tag : ParamTag s syn p v str)
    (hfirst : JsonEndsFirst s) :
    (∃ q, scanParamValue s syn v str = .next q ∧ InBlock s syn q ∧ v < q ∧ q ≤ s.length ∧
      trackRun s (valuePos s syn v str v) = trackRun s ⟨.structural syn, q⟩) ∨
    scanParamValue s syn v str =
      .stop (trackRun s (valuePos s syn v str v)).decode := by
  have hsyn := hb.known
  have hv : v ≤ s.length := by
    obtain ⟨e, -, -, hle⟩ := tag.before
    exact hle
  have hle : ∀ e, (valuePos s syn v str e).pos = e := by
    intro e
    cases str <;> rfl
  -- a full end tag at `e`
  have hclosed : ∀ e, v ≤ e → Outside s v str e → syn.paramEnd <+: s.drop e →
      Clear s syn v str e → InBlock s syn (e + syn.paramEnd.length) →
      v < e + syn.paramEnd.length ∧ e + syn.paramEnd.length ≤ s.length ∧
        trackRun s (valuePos s syn v str v) =
          trackRun s ⟨.structural syn, e + syn.paramEnd.length⟩ := by
    intro e hve hout hend hclear _
    have htwo := endTag_le hsyn (Or.inl hend)
    have := paramEnd_pos hsyn
    refine ⟨by omega, endTag_fits hend (by omega), ?_⟩
    rw [value_run hb tag hve (by omega) hclear]
    exact trackRun_next (hclear.tracks hb tag hve) (by rw [hle]; omega)
      (value_closed hsyn hout hend)
  -- the beginning of one
  have hpart : ∀ e, v ≤ e → Outside s v str e → e + 2 ≤ s.length →
      Lib.Partial syn.paramEnd s e → Clear s syn v str e →
      (trackRun s (valuePos s syn v str v)).decode = .structural := by
    intro e hve hout htwo hend hclear
    rw [value_run hb tag hve (by omega) hclear]
    exact value_begun hsyn hout htwo hend
  have hopen : (∀ e, Clear s syn v str e) →
      (trackRun s (valuePos s syn v str v)).decode = openState s v str := by
    intro hclear
    rw [value_run hb tag hv (le_refl _) (hclear _)]
    exact value_open
  cases str with
  | true =>
    obtain ⟨e, hve, hend, hclear, hscan⟩ | ⟨e, hve, htwo, hend, hclear, hscan⟩ | ⟨hclear, hscan⟩ :=
      scanString hsyn tag
    · have hin := InBlock.stringValue hb tag (hclear.stringOpen hve) hend
      obtain ⟨h1, h2, h3⟩ := hclosed e hve (Or.inl rfl) hend hclear hin
      exact Or.inl ⟨_, hscan, hin, h1, h2, h3⟩
    · right
      rw [hscan, hpart e hve (Or.inl rfl) htwo hend hclear]
    · right
      rw [hscan, hopen hclear]
  | false =>
    obtain ⟨e, hve, hout, hend, hclear, hscan⟩ | ⟨e, hve, hout, htwo, hend, hclear, hscan⟩ |
      ⟨hclear, hscan⟩ := scanJson hb tag hfirst
    · have hin := InBlock.jsonValue hb tag (hclear.jsonOpen hve) hout hend
      obtain ⟨h1, h2, h3⟩ := hclosed e hve (Or.inr hout) hend hclear hin
      exact Or.inl ⟨_, hscan, hin, h1, h2, h3⟩
    · right
      rw [hscan, hpart e hve (Or.inr hout) htwo hend hclear]
    · right
      rw [hscan, hopen hclear]

/-- **Tags.** Both recognizers go on behind the tag, or stop with the same answer. -/
theorem tag_agrees (hb : InBlock s syn pos) (hpos : pos ≤ s.length) (hfirst : JsonEndsFirst s) :
    (∃ q, scanTag s syn (skipSpace s s.length pos) = .next q ∧ InBlock s syn q ∧ pos < q ∧
      q ≤ s.length ∧ trackRun s ⟨.structural syn, pos⟩ = trackRun s ⟨.structural syn, q⟩) ∨
    scanTag s syn (skipSpace s s.length pos) =
      .stop (trackRun s ⟨.structural syn, pos⟩).decode := by
  have hsyn := hb.known
  have hstep : trackStep s s.length ⟨.structural syn, pos⟩ =
      trackTag s s.length (skipSpace s s.length pos) syn := rfl
  have htracks : Tracks s ⟨.structural syn, pos⟩ := .structural hb
  obtain ⟨hlb, hub⟩ := skipSpace_bounds (le_refl s.length) hpos
  have hspaces : InBlock s syn (skipSpace s s.length pos) :=
    hb.spaces hlb hub ((skipSpace_eq_iff (le_refl _) hlb hub).mp rfl).1
  generalize skipSpace s s.length pos = q at hstep hlb hub hspaces ⊢
  -- going on behind a tag, in both
  have hgo : ∀ q', trackStep s s.length ⟨.structural syn, pos⟩ = .next ⟨.structural syn, q'⟩ →
      InBlock s syn q' ∧ pos < q' ∧ q' ≤ s.length ∧
        trackRun s ⟨.structural syn, pos⟩ = trackRun s ⟨.structural syn, q'⟩ := by
    intro q' h
    obtain ⟨-, ht', hmoves, hle⟩ := trackStep_whole htracks hpos h
    refine ⟨?_, hmoves, hle, trackRun_next htracks hpos h⟩
    cases ht' with
    | structural h => exact h
  have hstop : ∀ t decode, trackStep s s.length ⟨.structural syn, pos⟩ = .stop t decode →
      (trackRun s ⟨.structural syn, pos⟩).decode = decode := by
    intro t decode h
    rw [trackRun_stop h]
  unfold scanTag
  unfold trackTag at hstep
  by_cases h0 : s.length ≤ q
  · rw [if_pos h0] at hstep ⊢
    right
    rw [hstop _ _ hstep]
  rw [if_neg h0] at hstep ⊢
  by_cases h1 : rawFullLit s s.length q syn.toolCallsEnd = true
  · rw [if_pos h1] at hstep ⊢
    right
    rw [hstop _ _ hstep]
  rw [if_neg h1] at hstep ⊢
  by_cases h2 : rawFullLit s s.length q syn.invokeEnd = true
  · rw [if_pos h2] at hstep ⊢
    exact Or.inl ⟨_, rfl, hgo _ hstep⟩
  rw [if_neg h2] at hstep ⊢
  by_cases h3 : rawFullLit s s.length q syn.invokeStart = true
  · rw [if_pos h3, trackInvokeTag] at hstep
    rw [if_pos h3, scanInvokeTag]
    cases hend : tagEndFrom s s.length q with
    | none =>
      rw [hend] at hstep
      right
      rw [hstop _ _ hstep]
    | some e =>
      rw [hend] at hstep
      exact Or.inl ⟨_, rfl, hgo _ hstep⟩
  rw [if_neg h3] at hstep ⊢
  by_cases h4 : rawFullLit s s.length q syn.paramStart = true
  · rw [if_pos h4, trackParamTag] at hstep
    rw [if_pos h4, scanParamTag]
    have hpre : syn.paramStart <+: s.drop q :=
      (fullLit_whole_iff (tag_pos hsyn (by simp [DsmlSyntax.tags]))).mp h4
    cases hend : tagEndFrom s s.length q with
    | none =>
      rw [hend] at hstep
      right
      rw [hstop _ _ hstep]
    | some e =>
      rw [hend] at hstep
      dsimp only at hstep ⊢
      have htag : ParamTag s syn q (e + 1) (dsmlAttrIsStringTrue s q (e + 1)) :=
        ⟨hpre, ⟨e, hend, rfl⟩, rfl⟩
      have hnext : trackStep s s.length ⟨.structural syn, pos⟩ =
          .next (valuePos s syn (e + 1) (dsmlAttrIsStringTrue s q (e + 1)) (e + 1)) := by
        rw [hstep]
        unfold valuePos
        rw [jsonFlags_self]
        split <;> rfl
      have hrun := trackRun_next htracks hpos hnext
      have hqe : q ≤ e := findLitBounded_bounds hend
      rw [hrun]
      obtain ⟨q', hscan, hin, hlt, hle, heq⟩ | hscan := value_agrees hspaces htag hfirst
      · exact Or.inl ⟨q', hscan, hin, by omega, hle, heq⟩
      · exact Or.inr hscan
  · rw [if_neg h4] at hstep ⊢
    right
    rw [hstop _ _ hstep]

/-- **The reference loop** classifies a text as the tracker does. -/
theorem scan_eq_track (hb : InBlock s syn pos) (hpos : pos ≤ s.length) (hfirst : JsonEndsFirst s)
    {fuel : Nat} (hfuel : s.length - pos < fuel) :
    scanLoop s syn fuel pos = (trackRun s ⟨.structural syn, pos⟩).decode := by
  induction fuel generalizing pos with
  | zero => exact absurd hfuel (Nat.not_lt_zero _)
  | succ fuel ih =>
    unfold scanLoop
    obtain ⟨q, hscan, hin, hlt, hle, hrun⟩ | hscan := tag_agrees hb hpos hfirst
    · rw [hscan, hrun]
      exact ih hin hle (by omega)
    · rw [hscan]

/-- The reference recognizer is one update of the tracker. -/
theorem reference_eq_tracker (hfirst : JsonEndsFirst s) :
    (dsmlDecodeTrackerUpdate s s.length .init).decode = dsmlDecodeStateForText s := by
  have hinit : Tracks s ⟨.search, 0⟩ := tracks_init s
  unfold dsmlDecodeStateForText
  show (trackRun s ⟨.search, 0⟩).decode = _
  have hstep : trackStep s s.length ⟨.search, 0⟩ = trackSearch s s.length 0 := rfl
  unfold trackSearch at hstep
  cases hfind : dsmlFindToolStartFrom s s.length 0 with
  | none =>
    rw [hfind] at hstep
    rw [trackRun_stop hstep]
  | some b =>
    obtain ⟨syn, q⟩ := b
    rw [hfind] at hstep
    have hgo := trackStep_whole hinit (Nat.zero_le _) hstep
    have hin : InBlock s syn q := by
      cases hgo.tracks with
      | structural h => exact h
    have hle : q ≤ s.length := hgo.le
    rw [trackRun_next hinit (Nat.zero_le _) hstep]
    exact (scan_eq_track hin hle hfirst (by omega)).symm

end Agree

/-- **Incremental.** Prefixes that do not end one byte into an end tag that closes a value leave
    the tracker where one update with the text does; and when no JSON value that ends has an end
    tag inside a string, that is what the reference recognizer says. -/
theorem tracker_incremental (s : Bytes) (lens : List Nat) (hsorted : lens.Pairwise (· ≤ ·))
    (hle : ∀ n ∈ lens, n ≤ s.length) (hu : ∀ n ∈ lens, Unsplit s n) :
    dsmlDecodeTrackerUpdate s s.length (trackPrefixes s lens .init) =
      dsmlDecodeTrackerUpdate s s.length .init ∧
    (JsonEndsFirst s →
      (dsmlDecodeTrackerUpdate s s.length (trackPrefixes s lens .init)).decode =
        dsmlDecodeStateForText s) := by
  have hrun := trackPrefixes_run hsorted (fun n hn => ⟨Nat.zero_le n, hle n hn⟩) hu (tracks_init s)
  refine ⟨hrun, fun hfirst => ?_⟩
  rw [hrun]
  exact reference_eq_tracker hfirst

/-! ### Texts on which they part -/

/-- A string parameter that is closed. -/
def sampleString : Bytes := lit "<tool_calls><parameter string=\"true\">xy</parameter>"

/-- A JSON parameter with an end tag inside a string, and a string parameter behind it. -/
def sampleJson : Bytes :=
  lit "<tool_calls><parameter>\"</parameter>\"</parameter><parameter string=\"true\">x"

/-- **Missed end tag.** The first prefix ends with the `<` of the end tag: the tracker stays in the
    string. And the reference recognizer takes the end tag inside a JSON string for the end of the
    value. -/
theorem tracker_misses_end_tag :
    (dsmlDecodeTrackerUpdate sampleString sampleString.length
      (trackPrefixes sampleString [40] .init)).mode = .stringBody plainSyntax ∧
    (dsmlDecodeTrackerUpdate sampleString sampleString.length .init).mode =
      .structural plainSyntax ∧
    dsmlDecodeStateForText sampleString = .structural ∧
    (dsmlDecodeTrackerUpdate sampleJson sampleJson.length .init).decode = .stringBody ∧
    dsmlDecodeStateForText sampleJson = .structural := by
  refine ⟨by decide +kernel, by decide +kernel, by decide +kernel, by decide +kernel,
    by decide +kernel⟩

/-- The same text in prefixes that end inside the value. -/
theorem tracker_sampleString :
    dsmlDecodeTrackerUpdate sampleString sampleString.length
        (trackPrefixes sampleString [17, 38, 39] .init) =
      dsmlDecodeTrackerUpdate sampleString sampleString.length .init ∧
    (dsmlDecodeTrackerUpdate sampleString sampleString.length
        (trackPrefixes sampleString [17, 38, 39] .init)).decode =
      dsmlDecodeStateForText sampleString := by
  have hhead : ∀ {syn k}, syn ∈ dsmlSyntaxes → EndTagAt sampleString syn k →
      sampleString[k]? = some '<'.toUInt8 := by
    rintro syn k hsyn (hend | ⟨-, hend⟩)
    · exact (headed_paramEnd hsyn).head hend
    · exact (headed_paramEnd hsyn).partial_head hend
  have hu : ∀ n ∈ [17, 38, 39], Unsplit sampleString n := by
    rintro n hn k rfl ⟨syn, p, v, hb, hend, -⟩
    have hget := hhead hb.known hend
    have hno : ∀ n ∈ [17, 38, 39], sampleString[n - 1]? ≠ some '<'.toUInt8 := by decide +kernel
    exact hno (k + 1) hn hget
  have hfirst : JsonEndsFirst sampleString := by
    intro syn p v e hb _ _ _ hend j _ hje hpre
    -- the text has one end tag, and no `<` behind it
    have hlast : ∀ e < 52, sampleString[e]? = some '<'.toUInt8 → e ≤ 39 := by decide +kernel
    have hno : ∀ syn ∈ dsmlSyntaxes, ∀ j < 39,
        syn.paramEnd.isPrefixOf (sampleString.drop j) = false := by decide +kernel
    have hlen : sampleString.length = 51 := by decide +kernel
    have := endTag_le hb.known hend
    have hle := hlast e (by omega) (hhead hb.known hend)
    have hfalse := hno syn hb.known j (by omega)
    rw [List.isPrefixOf_iff_prefix.mpr hpre] at hfalse
    exact absurd hfalse (by simp)
  obtain ⟨h1, h2⟩ := tracker_incremental sampleString [17, 38, 39] (by decide) (by decide +kernel) hu
  exact ⟨h1, h2 hfirst⟩

end DS4.Server
