import DS4.Lib.Utf8Parts
import DS4.Server.OpenaiStream

namespace DS4.Server

/-!
# Server — what the stream holds back

Facts about the safe lengths that every later proof about the stream cites.

* `NulFree` — a text that is its own C string.
* `utf8StreamSafeLen_boundary` — the UTF-8 tail: no character is cut, none is held needlessly.
* `DsmlSyntax.Known` — the markers are headed by `<`.
* `toolParamValueStreamSafeLen_spec` — a parameter value is not sent into its end tag, into an
  entity or past its end.
-/

/-! ### C strings -/

/-- A text without NUL bytes. -/
def NulFree (s : Bytes) : Prop := ∀ c ∈ s, c ≠ 0

theorem NulFree.cstr {s : Bytes} (h : NulFree s) : cstr s = s := by
  induction s with
  | nil => rfl
  | cons c s ih =>
    have hc : decide (c ≠ 0) = true := decide_eq_true (h c List.mem_cons_self)
    show List.takeWhile (fun c => c ≠ 0) (c :: s) = c :: s
    rw [List.takeWhile_cons, if_pos hc]
    exact congrArg (c :: ·) (ih (fun d hd => h d (List.mem_cons_of_mem c hd)))

theorem NulFree.of_sublist {s t : Bytes} (h : NulFree t) (hs : s.Sublist t) : NulFree s :=
  fun c hc => h c (hs.subset hc)

theorem NulFree.take {s : Bytes} (h : NulFree s) (n : Nat) : NulFree (s.take n) :=
  h.of_sublist (List.take_sublist n s)

theorem NulFree.drop {s : Bytes} (h : NulFree s) (n : Nat) : NulFree (s.drop n) :=
  h.of_sublist (List.drop_sublist n s)

theorem NulFree.slice {s : Bytes} (h : NulFree s) (a b : Nat) : NulFree (slice s a b) :=
  (h.take b).drop a

theorem NulFree.strstr {s : Bytes} (h : NulFree s) (pat : Bytes) :
    strstr s pat = Lib.findSub pat s := by
  unfold Server.strstr
  rw [h.cstr]

/-! ### Slices -/

theorem slice_length {raw : Bytes} {a b : Nat} (hb : b ≤ raw.length) :
    (slice raw a b).length = b - a := by
  unfold slice
  rw [List.length_drop, List.length_take, Nat.min_eq_left hb]

/-- A slice is made of two. -/
theorem slice_append {raw : Bytes} {a m b : Nat} (ham : a ≤ m) (hmb : m ≤ b) :
    slice raw a b = slice raw a m ++ slice raw m b := by
  unfold slice
  have htake : raw.take m = (raw.take b).take m := by
    rw [List.take_take, Nat.min_eq_left hmb]
  rw [htake]
  generalize raw.take b = t
  obtain ⟨k, rfl⟩ : ∃ k, m = a + k := ⟨m - a, by omega⟩
  rw [List.drop_take, Nat.add_sub_cancel_left, ← List.drop_drop, List.take_append_drop]

/-- Before a cut, the text and its part have the same slices. -/
theorem slice_take {raw : Bytes} {a b n : Nat} (hbn : b ≤ n) :
    slice (raw.take n) a b = slice raw a b := by
  unfold slice
  rw [List.take_take, Nat.min_eq_left hbn]

theorem slice_self_le {raw : Bytes} {a b : Nat} (h : b ≤ a) : slice raw a b = [] := by
  unfold slice
  rw [List.drop_eq_nil_iff, List.length_take]
  omega

theorem slice_length_eq {raw : Bytes} (a : Nat) : slice raw a raw.length = raw.drop a := by
  unfold slice
  rw [List.take_length]

/-! ### The UTF-8 tail -/

theorem isContinuation_iff (c : UInt8) : isContinuation c = true ↔ Lib.Tail c := by
  have hall : ∀ n < 256, isContinuation (UInt8.ofNat n) = decide (0x80 ≤ n ∧ n ≤ 0xbf) := by
    decide +kernel
  have hc := hall c.toNat c.toNat_lt
  rw [UInt8.ofNat_toNat] at hc
  rw [hc, decide_eq_true_eq]
  rfl

theorem utf8ExpectedLen_of_lead {b : UInt8} {n : Nat} (h : Lib.Lead b n) :
    utf8ExpectedLen b = n := by
  unfold utf8ExpectedLen
  simp only [UInt8.lt_iff_toNat_lt, UInt8.le_iff_toNat_le]
  show (if b.toNat < 0x80 then 1
    else if 0xc2 ≤ b.toNat ∧ b.toNat ≤ 0xdf then 2
    else if 0xe0 ≤ b.toNat ∧ b.toNat ≤ 0xef then 3
    else if 0xf0 ≤ b.toNat ∧ b.toNat ≤ 0xf4 then 4
    else 1) = n
  obtain ⟨rfl, h⟩ | ⟨rfl, h⟩ | ⟨rfl, h⟩ | ⟨rfl, h⟩ := h
  · rw [if_pos h]
  · rw [if_neg (by omega), if_pos h]
  · rw [if_neg (by omega), if_neg (by omega), if_pos h]
  · rw [if_neg (by omega), if_neg (by omega), if_neg (by omega), if_pos h]

/-- A first byte of more than one is not below 0xc2. -/
theorem lead_of_expected {b : UInt8} (h : 1 < utf8ExpectedLen b) : 0x80 ≤ b.toNat := by
  unfold utf8ExpectedLen at h
  by_cases hlt : b < 0x80
  · rw [if_pos hlt] at h
    omega
  · rw [UInt8.lt_iff_toNat_lt] at hlt
    exact Nat.not_lt.mp hlt

theorem utf8BackUp_le (s : Bytes) (start fuel p : Nat) : utf8BackUp s start fuel p ≤ p := by
  induction fuel generalizing p with
  | zero => exact Nat.le_refl _
  | succ fuel ih =>
    unfold utf8BackUp
    split
    · exact Nat.le_trans (ih (p - 1)) (Nat.sub_le p 1)
    · exact Nat.le_refl _

theorem le_utf8BackUp {s : Bytes} {start : Nat} (fuel : Nat) {p : Nat} (h : start ≤ p) :
    start ≤ utf8BackUp s start fuel p := by
  induction fuel generalizing p with
  | zero => exact h
  | succ fuel ih =>
    unfold utf8BackUp
    split
    · rename_i hp
      exact ih (by omega)
    · exact h

/-- It steps over continuation bytes down to a byte that is none. -/
theorem utf8BackUp_eq {s : Bytes} {start q : Nat} {fuel p : Nat} (hq : q ≤ p) (hfuel : p - q ≤ fuel)
    (hstart : start ≤ q) (htail : ∀ j, q ≤ j → j < p → isContinuation (s.getD j 0) = true)
    (hstop : q = start ∨ isContinuation (s.getD (q - 1) 0) = false) :
    utf8BackUp s start fuel p = q := by
  induction fuel generalizing p with
  | zero =>
    show p = q
    omega
  | succ fuel ih =>
    unfold utf8BackUp
    by_cases hpq : p = q
    · subst hpq
      rw [if_neg]
      rintro ⟨hlt, hcont⟩
      obtain rfl | hno := hstop
      · exact Nat.lt_irrefl _ hlt
      · rw [hno] at hcont
        exact absurd hcont (by simp)
    · rw [if_pos ⟨by omega, htail (p - 1) (by omega) (by omega)⟩]
      exact ih (by omega) (by omega) (fun j hj hj' => htail j hj (by omega))

/-- What it stepped over is a continuation byte. -/
theorem utf8BackUp_tail {s : Bytes} {start fuel p : Nat} (h : utf8BackUp s start fuel p < p) :
    isContinuation (s.getD (utf8BackUp s start fuel p) 0) = true := by
  induction fuel generalizing p with
  | zero => exact absurd h (Nat.lt_irrefl _)
  | succ fuel ih =>
    unfold utf8BackUp at h ⊢
    split at h
    · rename_i hp
      rw [if_pos hp]
      by_cases hlt : utf8BackUp s start fuel (p - 1) < p - 1
      · exact ih hlt
      · have hle := utf8BackUp_le s start fuel (p - 1)
        rw [show utf8BackUp s start fuel (p - 1) = p - 1 by omega]
        exact hp.2
    · exact absurd h (Nat.lt_irrefl _)

theorem utf8StreamSafeLen_bounds (s : Bytes) {start limit : Nat} (h : start ≤ limit) (final : Bool) :
    start ≤ utf8StreamSafeLen s start limit final ∧
      utf8StreamSafeLen s start limit final ≤ limit := by
  have hle := utf8BackUp_le s start 4 limit
  have hge := le_utf8BackUp (s := s) 4 h
  have htail := @utf8BackUp_tail s start 4 limit
  unfold utf8StreamSafeLen
  split
  · exact ⟨h, Nat.le_refl _⟩
  rename_i hnot
  dsimp only
  generalize utf8BackUp s start 4 limit = p at hle hge htail ⊢
  by_cases hp : p = limit
  · rw [if_pos hp]
    split <;> omega
  rw [if_neg hp]
  by_cases hs : p = start ∧ isContinuation (s.getD p 0) = true
  · rw [if_pos hs]
    exact ⟨Nat.le_refl _, h⟩
  rw [if_neg hs]
  -- the byte at `p` was stepped over, so `p` is not `start`
  have hps : p ≠ start := fun heq => hs ⟨heq, htail (by omega)⟩
  split <;> omega

/-- A tail that is held starts at `start` or with a byte that is not ASCII. -/
theorem utf8StreamSafeLen_head {s : Bytes} {start limit : Nat}
    (hlt : utf8StreamSafeLen s start limit false < limit) :
    utf8StreamSafeLen s start limit false = start ∨
      0x80 ≤ (s.getD (utf8StreamSafeLen s start limit false) 0).toNat := by
  unfold utf8StreamSafeLen at hlt ⊢
  split at hlt
  · exact absurd hlt (Nat.lt_irrefl _)
  rename_i hnot
  rw [if_neg hnot]
  dsimp only at hlt ⊢
  generalize utf8BackUp s start 4 limit = p at hlt ⊢
  by_cases hp : p = limit
  · rw [if_pos hp] at hlt ⊢
    by_cases hlead : 1 < utf8ExpectedLen (s.getD (limit - 1) 0)
    · rw [if_pos hlead]
      exact Or.inr (lead_of_expected hlead)
    · rw [if_neg hlead] at hlt
      exact absurd hlt (Nat.lt_irrefl _)
  rw [if_neg hp] at hlt ⊢
  by_cases hs : p = start ∧ isContinuation (s.getD p 0) = true
  · rw [if_pos hs]
    exact Or.inl rfl
  rw [if_neg hs] at hlt ⊢
  by_cases hneed : limit - (p - 1) < utf8ExpectedLen (s.getD (p - 1) 0)
  · rw [if_pos hneed] at hlt ⊢
    exact Or.inr (lead_of_expected (by omega))
  · rw [if_neg hneed] at hlt
    exact absurd hlt (Nat.lt_irrefl _)

/-- Only the bytes before the limit are read. -/
theorem utf8StreamSafeLen_take (s : Bytes) (start : Nat) {limit n : Nat} (h : limit ≤ n)
    (final : Bool) :
    utf8StreamSafeLen (s.take n) start limit final = utf8StreamSafeLen s start limit final := by
  have hget : ∀ i, i < n → (s.take n).getD i 0 = s.getD i 0 := by
    intro i hi
    rw [List.getD_eq_getElem?_getD, List.getD_eq_getElem?_getD, Lib.getElem?_take_lt hi]
  have hback : ∀ fuel p, p ≤ n → utf8BackUp (s.take n) start fuel p = utf8BackUp s start fuel p := by
    intro fuel
    induction fuel with
    | zero => exact fun p _ => rfl
    | succ fuel ih =>
      intro p hp
      unfold utf8BackUp
      by_cases hs : start < p
      · rw [hget (p - 1) (by omega), ih (p - 1) (by omega)]
      · rw [if_neg (fun h => hs h.1), if_neg (fun h => hs h.1)]
  unfold utf8StreamSafeLen
  by_cases hfin : final = true ∨ limit ≤ start
  · rw [if_pos hfin, if_pos hfin]
  · rw [if_neg hfin, if_neg hfin, hback 4 limit h]
    dsimp only
    have hle := utf8BackUp_le s start 4 limit
    generalize utf8BackUp s start 4 limit = p at hle ⊢
    rw [hget (limit - 1) (by omega), hget (p - 1) (by omega)]
    by_cases hp : p = limit
    · rw [if_pos hp, if_pos hp]
    · rw [if_neg hp, if_neg hp, hget p (by omega)]

/-- **The character at the limit.** The limit stays, unless it is inside a character: then it goes
    back to the start of that character. -/
theorem utf8StreamSafeLen_char {s : Bytes} (hs : Lib.Valid s) {start limit : Nat}
    (hstart : Lib.Boundary s start) (h : start < limit) (hlimit : limit ≤ s.length) :
    ∃ b n, Lib.CharAt s b n ∧ start ≤ b ∧ b < limit ∧ limit ≤ b + n ∧
      utf8StreamSafeLen s start limit false = if limit < b + n then b else limit := by
  obtain ⟨b, n, hb, hbn, hbl, hln, ⟨x, hx, hlead⟩, htail⟩ := hs.around (i := limit) (by omega) hlimit
  have hsb : start ≤ b := by
    by_contra hlt'
    exact hstart.not_inside htail (by omega) (by omega)
  have hfour := hlead.le_four
  have hcont : ∀ j, b + 1 ≤ j → j < limit → isContinuation (s.getD j 0) = true := by
    intro j hj hj'
    obtain ⟨y, hy, hyt⟩ := htail j (by omega) (by omega)
    rw [List.getD_eq_getElem?_getD, hy]
    exact (isContinuation_iff y).mpr hyt
  have hgetb : s.getD b 0 = x := by
    rw [List.getD_eq_getElem?_getD, hx]
    rfl
  have hnotcont : isContinuation (s.getD b 0) = false := by
    rw [hgetb]
    exact Bool.eq_false_iff.mpr (fun hc => hlead.not_tail ((isContinuation_iff x).mp hc))
  have hback : utf8BackUp s start 4 limit = b + 1 :=
    utf8BackUp_eq (by omega) (by omega) (by omega) hcont (Or.inr hnotcont)
  refine ⟨b, n, ⟨hb, hbn, ⟨x, hx, hlead⟩, htail⟩, hsb, hbl, hln, ?_⟩
  unfold utf8StreamSafeLen
  rw [if_neg (by simp; omega), hback]
  dsimp only
  by_cases hone : b + 1 = limit
  -- the first byte stands right before the limit
  · rw [if_pos hone, show limit - 1 = b by omega, hgetb, utf8ExpectedLen_of_lead hlead]
    by_cases hn : 1 < n
    · rw [if_pos hn, if_pos (by omega)]
    · rw [if_neg hn, if_neg (by omega)]
  · rw [if_neg hone, if_neg (fun hc => by omega), Nat.add_sub_cancel, hgetb,
      utf8ExpectedLen_of_lead hlead]
    by_cases hn : limit - b < n
    · rw [if_pos hn, if_pos (by omega)]
    · rw [if_neg hn, if_neg (by omega)]

/-- **Whole characters.** Between two boundaries of a valid text nothing is held, and a limit
    inside a character goes back to its start. -/
theorem utf8StreamSafeLen_boundary {s : Bytes} (hs : Lib.Valid s) {start limit : Nat}
    (hstart : Lib.Boundary s start) (h : start ≤ limit) (hlimit : limit ≤ s.length) :
    Lib.Boundary s (utf8StreamSafeLen s start limit false) ∧
      (Lib.Boundary s limit → utf8StreamSafeLen s start limit false = limit) := by
  rcases Nat.eq_or_lt_of_le h with rfl | hlt
  · have hval : utf8StreamSafeLen s start start false = start := by
      unfold utf8StreamSafeLen
      rw [if_pos (Or.inr (Nat.le_refl _))]
    rw [hval]
    exact ⟨hstart, fun _ => rfl⟩
  obtain ⟨b, n, hchar, -, hbl, hln, hval⟩ := utf8StreamSafeLen_char hs hstart hlt hlimit
  rw [hval]
  by_cases hin : limit < b + n
  · rw [if_pos hin]
    exact ⟨hchar.start, fun hl => absurd (hl.not_inside hchar.tail hbl hin) id⟩
  · rw [if_neg hin]
    have heq : limit = b + n := by omega
    rw [heq]
    exact ⟨hchar.stop, fun _ => rfl⟩

/-! ### Markers and entities -/

/-- The markers of a spelling. -/
def DsmlSyntax.markers (syn : DsmlSyntax) : List Bytes :=
  [syn.toolCallsStart, syn.toolCallsEnd, syn.invokeStart, syn.invokeEnd, syn.paramStart,
    syn.paramEnd]

/-- **Markers** start with `<` and have no other `<`. -/
theorem headed_marker {syn : DsmlSyntax} (h : syn ∈ dsmlSyntaxes) {m : Bytes} (hm : m ∈ syn.markers) :
    Lib.Headed '<'.toUInt8 m := by
  have hall : ∀ syn ∈ dsmlSyntaxes, ∀ m ∈ syn.markers,
      m.head? = some '<'.toUInt8 ∧ '<'.toUInt8 ∉ m.tail := by decide +kernel
  exact (Lib.headed_iff).mpr (hall syn h m hm)

theorem headed_paramEnd {syn : DsmlSyntax} (h : syn ∈ dsmlSyntaxes) :
    Lib.Headed '<'.toUInt8 syn.paramEnd :=
  headed_marker h (by simp [DsmlSyntax.markers])

/-- The bytes of the entities, and the bytes they stand for. -/
theorem entity_bytes : ∀ e ∈ dsmlEntities,
    ((e.1.head? = some '&'.toUInt8 ∧ '&'.toUInt8 ∉ e.1.tail) ∧ e.1.length ≤ 6) ∧
      (∀ c ∈ e.1, c.toNat < 0x80) ∧ e.2 ≠ 0 := by
  decide +kernel

/-- **Entities** start with `&`, have no other `&`, are at most 6 bytes long, … -/
theorem headed_entity {e : Bytes} (h : e ∈ dsmlEntities.map Prod.fst) :
    Lib.Headed '&'.toUInt8 e ∧ e.length ≤ 6 := by
  obtain ⟨ent, hent, rfl⟩ := List.mem_map.mp h
  have hall := (entity_bytes ent hent).1
  exact ⟨(Lib.headed_iff).mpr hall.1, hall.2⟩

/-- … and are ASCII. -/
theorem entity_ascii {e : Bytes} (h : e ∈ dsmlEntities.map Prod.fst) {c : UInt8} (hc : c ∈ e) :
    c.toNat < 0x80 := by
  obtain ⟨ent, hent, rfl⟩ := List.mem_map.mp h
  exact (entity_bytes ent hent).2.1 c hc

/-! ### Parameter values -/

section

variable {pe : Bytes} (hpe : Lib.Headed '<'.toUInt8 pe)
include hpe

/-- The tail of an end tag that is held back. -/
def paramHold (pe raw : Bytes) (start limit : Nat) : Nat :=
  Lib.holdBack '<'.toUInt8 [pe] pe.length raw start limit

/-- The tail of an end tag or of an entity that is held back. -/
def valueHold (pe raw : Bytes) (isString : Bool) (start limit : Nat) : Nat :=
  if isString then dsmlEntityStreamSafeLen raw start (paramHold pe raw start limit)
  else paramHold pe raw start limit

omit hpe in
theorem safeLen_eq (pe raw : Bytes) (start rawLen : Nat) (isString : Bool) :
    toolParamValueStreamSafeLen raw start rawLen pe isString =
      utf8StreamSafeLen raw start (valueHold pe raw isString start rawLen) false := rfl

omit hpe in
theorem paramEnd_mem {p : Bytes → Prop} (h : p pe) : ∀ pat ∈ [pe], p pat := by
  intro pat hpat
  obtain rfl := List.mem_singleton.mp hpat
  exact h

theorem paramHold_spec {raw : Bytes} {start limit : Nat} (h : start ≤ limit)
    (hl : limit ≤ raw.length) :
    start ≤ paramHold pe raw start limit ∧ paramHold pe raw start limit ≤ limit ∧
      (paramHold pe raw start limit < limit →
        Lib.Partial pe (raw.take limit) (paramHold pe raw start limit)) ∧
      ∀ k, start ≤ k → Lib.Partial pe (raw.take limit) k → paramHold pe raw start limit = k := by
  obtain ⟨h1, h2, h3, h4⟩ := Lib.holdBack_spec (paramEnd_mem hpe)
    (paramEnd_mem (p := fun pat => pat.length ≤ pe.length) (Nat.le_refl _)) h hl
  refine ⟨h1, h2, fun hlt => ?_, fun k hk hp => h4 k hk ⟨pe, List.mem_singleton_self pe, hp⟩⟩
  obtain ⟨pat, hpat, hp⟩ := h3 hlt
  obtain rfl := List.mem_singleton.mp hpat
  exact hp

omit hpe in
theorem entityHold_spec {raw : Bytes} {start limit : Nat} (h : start ≤ limit)
    (hl : limit ≤ raw.length) :
    start ≤ dsmlEntityStreamSafeLen raw start limit ∧
      dsmlEntityStreamSafeLen raw start limit ≤ limit ∧
      (dsmlEntityStreamSafeLen raw start limit < limit →
        ∃ e ∈ dsmlEntities.map Prod.fst,
          Lib.Partial e (raw.take limit) (dsmlEntityStreamSafeLen raw start limit)) ∧
      ∀ k, start ≤ k → (∃ e ∈ dsmlEntities.map Prod.fst, Lib.Partial e (raw.take limit) k) →
        dsmlEntityStreamSafeLen raw start limit = k :=
  Lib.holdBack_spec (fun _ he => (headed_entity he).1) (fun _ he => (headed_entity he).2) h hl

theorem valueHold_bounds {raw : Bytes} (isString : Bool) {start limit : Nat} (h : start ≤ limit)
    (hl : limit ≤ raw.length) :
    start ≤ valueHold pe raw isString start limit ∧
      valueHold pe raw isString start limit ≤ paramHold pe raw start limit := by
  obtain ⟨h1, h2, -, -⟩ := paramHold_spec hpe h hl
  unfold valueHold
  cases isString with
  | false => exact ⟨h1, Nat.le_refl _⟩
  | true =>
    obtain ⟨h3, h4, -, -⟩ := entityHold_spec h1 (Nat.le_trans h2 hl)
    exact ⟨h3, h4⟩

/-- **Bounds.** The safe length is inside the value. -/
theorem safeLen_bounds {raw : Bytes} (isString : Bool) {start limit : Nat} (h : start ≤ limit)
    (hl : limit ≤ raw.length) :
    start ≤ toolParamValueStreamSafeLen raw start limit pe isString ∧
      toolParamValueStreamSafeLen raw start limit pe isString ≤
        valueHold pe raw isString start limit := by
  rw [safeLen_eq]
  exact utf8StreamSafeLen_bounds raw (valueHold_bounds hpe isString h hl).1 false

theorem safeLen_le {raw : Bytes} (isString : Bool) {start limit : Nat} (h : start ≤ limit)
    (hl : limit ≤ raw.length) : toolParamValueStreamSafeLen raw start limit pe isString ≤ limit := by
  have h1 := (safeLen_bounds hpe isString h hl).2
  have h2 := (valueHold_bounds hpe isString h hl).2
  have h3 := (paramHold_spec hpe h hl).2.1
  omega

/-- **End tags.** Nothing of an end tag that starts before a cut is sent at the cut. -/
theorem safeLen_le_paramEnd {full : Bytes} (isString : Bool) {start n k : Nat} (h : start ≤ n)
    (hn : n ≤ full.length) (hk : start ≤ k) (hp : pe <+: full.drop k) (hcut : n < k + pe.length) :
    toolParamValueStreamSafeLen (full.take n) start n pe isString ≤ k := by
  have hlen : n ≤ (full.take n).length := by
    rw [List.length_take]
    omega
  have h1 := safeLen_le hpe isString h hlen
  by_cases hkn : k < n
  · have h2 := (safeLen_bounds hpe isString h hlen).2
    have h3 := (valueHold_bounds hpe isString h hlen).2
    have hpart := Lib.Headed.partial_of_cut hp hkn hn hcut
    have h4 := (paramHold_spec hpe h hlen).2.2.2 k hk
      (by rw [List.take_take, Nat.min_self]; exact hpart)
    omega
  · omega

/-- **Entities.** What is sent of a string ends in front of an entity or behind it. -/
theorem safeLen_entity {full : Bytes} {start n k : Nat} (h : start ≤ n) (hn : n ≤ full.length)
    {e : Bytes} (he : e ∈ dsmlEntities.map Prod.fst) (hk : start ≤ k) (hp : e <+: full.drop k)
    (hlt : k < toolParamValueStreamSafeLen (full.take n) start n pe true) :
    k + e.length ≤ toolParamValueStreamSafeLen (full.take n) start n pe true := by
  have hlen : n ≤ (full.take n).length := by
    rw [List.length_take]
    omega
  have hbounds := safeLen_bounds hpe true h hlen
  rw [safeLen_eq] at hlt hbounds ⊢
  obtain ⟨hpl, hpu, -, -⟩ := paramHold_spec hpe h hlen
  obtain ⟨hel, heu, hpart, huniq⟩ := entityHold_spec hpl (Nat.le_trans hpu hlen)
  -- `limit` is where the held entity or end tag starts
  have hhold : valueHold pe (full.take n) true start n =
      dsmlEntityStreamSafeLen (full.take n) start (paramHold pe (full.take n) start n) := rfl
  rw [← hhold] at hel heu hpart huniq
  generalize hlim : valueHold pe (full.take n) true start n = limit at *
  generalize hmark : paramHold pe (full.take n) start n = marker at *
  have hhead := (headed_entity he).1
  by_contra hin
  by_cases hend : k + e.length ≤ limit
  -- the entity is cut by the UTF-8 tail, but it is ASCII
  · obtain hs | hbyte := utf8StreamSafeLen_head
      (show utf8StreamSafeLen (full.take n) start limit false < limit by omega)
    · omega
    · have hget := (Lib.prefix_drop_iff).mp hp
        (utf8StreamSafeLen (full.take n) start limit false - k) (by omega)
      rw [Nat.add_sub_cancel' (by omega)] at hget
      rw [List.getD_eq_getElem?_getD, Lib.getElem?_take_lt (by omega), hget] at hbyte
      obtain ⟨c, hc⟩ : ∃ c, e[utf8StreamSafeLen (full.take n) start limit false - k]? = some c :=
        ⟨_, List.getElem?_eq_getElem (by omega)⟩
      rw [hc, Option.getD_some] at hbyte
      have := entity_ascii he (List.mem_of_getElem? hc)
      omega
  · have hcut := Lib.Headed.partial_of_cut hp (n := limit) (by omega) (by omega) (by omega)
    by_cases hlm : limit < marker
    -- another entity would start inside this one
    · obtain ⟨e', he', hp'⟩ := hpart hlm
      have hget := (headed_entity he').1.partial_head hp'
      rw [List.take_take, Nat.min_eq_left hpu, Lib.getElem?_take_lt hlm] at hget
      exact hhead.inner_ne hp (by omega) (by omega) hget
    -- the entity would have been held
    · have heq : limit = marker := by omega
      subst heq
      have := huniq k hk ⟨e, he, by rw [List.take_take, Nat.min_eq_left hpu]; exact hcut⟩
      omega

omit hpe in
/-- Only the bytes before the limit are read. -/
theorem entityHold_take (full : Bytes) (start : Nat) {limit n : Nat} (h : limit ≤ n) :
    dsmlEntityStreamSafeLen (full.take n) start limit = dsmlEntityStreamSafeLen full start limit :=
  Lib.holdBack_take h

theorem valueHold_take {full : Bytes} (isString : Bool) {start n : Nat} (h : start ≤ n)
    (hn : n ≤ full.length) :
    valueHold pe (full.take n) isString start n = valueHold pe full isString start n := by
  have hle := (paramHold_spec hpe h hn).2.1
  have hmark : paramHold pe (full.take n) start n = paramHold pe full start n :=
    Lib.holdBack_take (Nat.le_refl n)
  unfold valueHold
  rw [hmark, entityHold_take full start hle]

theorem valueHold_mono {full : Bytes} (isString : Bool) {start n : Nat} (h : start ≤ n)
    (hn : n ≤ full.length) :
    valueHold pe full isString start n ≤ valueHold pe full isString start full.length := by
  have hmark : paramHold pe full start n ≤ paramHold pe full start full.length :=
    Lib.holdBack_mono (paramEnd_mem hpe)
      (paramEnd_mem (p := fun pat => pat.length ≤ pe.length) (Nat.le_refl _)) h hn (Nat.le_refl _)
  unfold valueHold
  cases isString with
  | false => exact hmark
  | true =>
    exact Lib.holdBack_mono (fun _ he => (headed_entity he).1) (fun _ he => (headed_entity he).2)
      (paramHold_spec hpe h hn).1 hmark
      (paramHold_spec hpe (Nat.le_trans h hn) (Nat.le_refl _)).2.1

theorem valueHold_restart {full : Bytes} (isString : Bool) {start start' : Nat}
    (h : start ≤ start') (hle : start' ≤ valueHold pe full isString start full.length)
    (hs : start ≤ full.length) :
    valueHold pe full isString start' full.length = valueHold pe full isString start full.length := by
  have hbound := (valueHold_bounds hpe isString hs (Nat.le_refl _)).2
  obtain ⟨hlb, hub, -, -⟩ := paramHold_spec hpe hs (Nat.le_refl _)
  have hmark : paramHold pe full start' full.length = paramHold pe full start full.length :=
    Lib.holdBack_restart (paramEnd_mem hpe)
      (paramEnd_mem (p := fun pat => pat.length ≤ pe.length) (Nat.le_refl _)) h
      (Nat.le_trans hle hbound) (Nat.le_refl _) hs
  unfold valueHold at hle ⊢
  rw [hmark]
  cases isString with
  | false => rfl
  | true =>
    exact Lib.holdBack_restart (fun _ he => (headed_entity he).1)
      (fun _ he => (headed_entity he).2) h hle hub hlb

/-- The held tail starts with `<` or `&`, or the text ends there. -/
theorem valueHold_boundary {full : Bytes} (hfull : Lib.Valid full) (isString : Bool) {start : Nat}
    (hs : start ≤ full.length) :
    Lib.Boundary full (valueHold pe full isString start full.length) := by
  obtain ⟨hlb, hub, hpart, -⟩ := paramHold_spec hpe hs (Nat.le_refl _)
  rw [List.take_length] at hpart
  have hmark : Lib.Boundary full (paramHold pe full start full.length) := by
    by_cases hlt : paramHold pe full start full.length < full.length
    · exact (hfull.boundary_of_ascii (hpe.partial_head (hpart hlt)) (by decide)).1
    · rw [show paramHold pe full start full.length = full.length by omega]
      exact Lib.boundary_length hfull
  unfold valueHold
  cases isString with
  | false => exact hmark
  | true =>
    show Lib.Boundary full (dsmlEntityStreamSafeLen full start _)
    obtain ⟨-, heu, hent, -⟩ := entityHold_spec hlb hub
    by_cases hlt : dsmlEntityStreamSafeLen full start (paramHold pe full start full.length) <
        paramHold pe full start full.length
    · obtain ⟨e, he, hp⟩ := hent hlt
      have hget := (headed_entity he).1.partial_head hp
      rw [Lib.getElem?_take_lt hlt] at hget
      exact (hfull.boundary_of_ascii hget (by decide)).1
    · rw [show dsmlEntityStreamSafeLen full start (paramHold pe full start full.length) =
        paramHold pe full start full.length by omega]
      exact hmark

/-- **Going on.** In a valid text the value that never ends is sent up to the same position from
    any earlier safe length. -/
theorem safeLen_restart {full : Bytes} (hfull : Lib.Valid full) (isString : Bool) {start n : Nat}
    (hstart : Lib.Boundary full start) (h : start ≤ n) (hn : n ≤ full.length) :
    let cut := toolParamValueStreamSafeLen (full.take n) start n pe isString
    Lib.Boundary full cut ∧
      cut ≤ toolParamValueStreamSafeLen full start full.length pe isString ∧
      toolParamValueStreamSafeLen full cut full.length pe isString =
        toolParamValueStreamSafeLen full start full.length pe isString := by
  intro cut
  have hs : start ≤ full.length := Nat.le_trans h hn
  obtain ⟨hvl, hvu⟩ := valueHold_bounds hpe isString h hn
  have hvn : valueHold pe full isString start n ≤ n :=
    Nat.le_trans hvu (paramHold_spec hpe h hn).2.1
  have hcut : cut = utf8StreamSafeLen full start (valueHold pe full isString start n) false := by
    show toolParamValueStreamSafeLen (full.take n) start n pe isString = _
    rw [safeLen_eq, valueHold_take hpe isString h hn, utf8StreamSafeLen_take full start hvn]
  have hle : cut ≤ valueHold pe full isString start n := by
    rw [hcut]
    exact (utf8StreamSafeLen_bounds full hvl false).2
  have hge : start ≤ cut := by
    rw [hcut]
    exact (utf8StreamSafeLen_bounds full hvl false).1
  have hbound : Lib.Boundary full cut := by
    rw [hcut]
    exact (utf8StreamSafeLen_boundary hfull hstart hvl (Nat.le_trans hvn hn)).1
  have hmono := valueHold_mono hpe isString h hn
  have hend := valueHold_boundary hpe hfull isString hs
  obtain ⟨hfl, hfu⟩ := valueHold_bounds hpe isString hs (Nat.le_refl full.length)
  have hfull' : valueHold pe full isString start full.length ≤ full.length :=
    Nat.le_trans hfu (paramHold_spec hpe hs (Nat.le_refl _)).2.1
  have hrestart := valueHold_restart hpe isString hge (Nat.le_trans hle hmono) hs
  -- both ends are boundaries, so no UTF-8 tail is held
  rw [safeLen_eq, safeLen_eq, hrestart, (utf8StreamSafeLen_boundary hfull hstart hfl hfull').2 hend,
    (utf8StreamSafeLen_boundary hfull hbound (Nat.le_trans hle hmono) hfull').2 hend]
  exact ⟨hbound, Nat.le_trans hle hmono, rfl⟩

end

/-! ### Strings -/

theorem unescapeFrom_none {c : UInt8} {s : Bytes} (h : entityAt (c :: s) = none) :
    unescapeFrom 0 (c :: s) = c :: unescapeFrom 0 s := by
  rw [unescapeFrom, h]

theorem unescapeFrom_some {c : UInt8} {s : Bytes} {e : Bytes × UInt8}
    (h : entityAt (c :: s) = some e) :
    unescapeFrom 0 (c :: s) = e.2 :: unescapeFrom (e.1.length - 1) s := by
  rw [unescapeFrom, h]

/-- **Entities, cut.** A text that is cut between entities is unescaped in two parts. -/
theorem unescapeFrom_append {a b : Bytes} {k : Nat} (hk : k ≤ a.length)
    (hcut : ∀ j < a.length, ∀ e ∈ dsmlEntities.map Prod.fst, e <+: (a ++ b).drop j →
      j + e.length ≤ a.length) :
    unescapeFrom k (a ++ b) = unescapeFrom k a ++ unescapeFrom 0 b := by
  induction a generalizing k with
  | nil =>
    obtain rfl : k = 0 := Nat.le_zero.mp hk
    rfl
  | cons c a ih =>
    have hrest : ∀ j < a.length, ∀ e ∈ dsmlEntities.map Prod.fst, e <+: (a ++ b).drop j →
        j + e.length ≤ a.length := by
      intro j hj e he hp
      have := hcut (j + 1) (by rw [List.length_cons]; omega) e he hp
      rw [List.length_cons] at this
      omega
    cases k with
    | succ k => exact ih (by rw [List.length_cons] at hk; omega) hrest
    | zero =>
      -- the entity here is the same with and without `b`
      have hsame : entityAt (c :: a ++ b) = entityAt (c :: a) := by
        unfold entityAt
        apply Lib.find?_eq_of_forall
        intro e he
        rw [Bool.eq_iff_iff, List.isPrefixOf_iff_prefix, List.isPrefixOf_iff_prefix]
        constructor
        · intro hp
          have hlen := hcut 0 (by simp) e.1 (List.mem_map_of_mem he) hp
          rw [Nat.zero_add] at hlen
          exact List.prefix_of_prefix_length_le hp (List.prefix_append _ _) hlen
        · exact fun hp => hp.trans (List.prefix_append _ _)
      cases hent : entityAt (c :: a) with
      | none =>
        have hent' : entityAt (c :: (a ++ b)) = none := hsame.trans hent
        rw [unescapeFrom_none hent, List.cons_append, unescapeFrom_none hent',
          ih (Nat.zero_le _) hrest]
        rfl
      | some e =>
        have hp := List.find?_some hent
        rw [List.isPrefixOf_iff_prefix] at hp
        have hlen := hp.length_le
        rw [List.length_cons] at hlen
        have hent' : entityAt (c :: (a ++ b)) = some e := hsame.trans hent
        rw [unescapeFrom_some hent, List.cons_append, unescapeFrom_some hent',
          ih (by omega) hrest]
        rfl

/-- Unescaping makes no NUL bytes. -/
theorem NulFree.unescapeFrom {s : Bytes} (h : NulFree s) (k : Nat) : NulFree (unescapeFrom k s) := by
  have hents : ∀ e ∈ dsmlEntities, e.2 ≠ 0 := fun e he => (entity_bytes e he).2.2
  induction s generalizing k with
  | nil =>
    intro c hc
    have : c ∈ ([] : Bytes) := by
      cases k <;> exact hc
    exact absurd this List.not_mem_nil
  | cons c s ih =>
    have hs : NulFree s := fun d hd => h d (List.mem_cons_of_mem c hd)
    cases k with
    | succ k => exact ih hs k
    | zero =>
      cases hent : entityAt (c :: s) with
      | none =>
        rw [unescapeFrom_none hent]
        intro d hd
        obtain rfl | hd := List.mem_cons.mp hd
        · exact h d List.mem_cons_self
        · exact ih hs 0 d hd
      | some e =>
        rw [unescapeFrom_some hent]
        intro d hd
        obtain rfl | hd := List.mem_cons.mp hd
        · exact hents e (List.mem_of_find?_eq_some hent)
        · exact ih hs _ d hd

end DS4.Server
