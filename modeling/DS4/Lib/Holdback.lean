import DS4.Lib.Find

namespace DS4.Lib

/-!
# Hold-back: what a growing text may still turn into

A text arrives in pieces and is scanned for patterns.  A pattern that starts in the part that has
arrived may end in a part that has not, so the tail that could be its beginning is held back.

* `Headed c pat` — `pat` starts with `c` and has no other `c`, so its occurrences do not overlap.
* `Partial pat s i` — from `i` on, `s` is a proper beginning of `pat`.
* `Headed.partial_of_cut` — an occurrence that a cut of the text goes through leaves a partial one.
* `lastIdx` — the backward scan for a byte; `holdBack` — where the held tail starts.
* `holdBack_spec` — it is the one partial occurrence of a pattern, or the end of the text.
* `holdBack_mono`, `holdBack_restart` — more text, and a later start.
-/

variable {α : Type*}

/-- `pat` starts with `c` and has no other `c`. -/
def Headed (c : α) (pat : List α) : Prop := ∃ r, pat = c :: r ∧ c ∉ r

/-- From `i` on, `s` is a nonempty proper beginning of `pat`. -/
def Partial (pat s : List α) (i : Nat) : Prop :=
  i < s.length ∧ s.length - i < pat.length ∧ s.drop i <+: pat

/-! ### Occurrences, byte by byte -/

/-- A pattern occurs at `i` when its elements stand there. -/
theorem prefix_drop_iff {pat s : List α} {i : Nat} :
    pat <+: s.drop i ↔ ∀ k < pat.length, s[i + k]? = pat[k]? := by
  constructor
  · rintro ⟨r, hr⟩ k hk
    have hget : (s.drop i)[k]? = pat[k]? := by
      rw [← hr, List.getElem?_append_left hk]
    rw [← hget, List.getElem?_drop]
  · intro h
    induction pat generalizing i with
    | nil => exact List.nil_prefix
    | cons c r ih =>
      have hc : s[i]? = some c := h 0 (by simp)
      obtain ⟨hi, hget⟩ := List.getElem?_eq_some_iff.mp hc
      rw [List.drop_eq_getElem_cons hi, hget, List.cons_prefix_cons]
      refine ⟨rfl, ih ?_⟩
      intro k hk
      have hk' := h (k + 1) (by rw [List.length_cons]; omega)
      rw [show i + 1 + k = i + (k + 1) by omega, hk', List.getElem?_cons_succ]

/-- The rest of a text from `i` on is a beginning of `pat` when its elements are. -/
theorem drop_prefix_iff {pat s : List α} {i : Nat} :
    s.drop i <+: pat ↔ ∀ k, i + k < s.length → pat[k]? = s[i + k]? := by
  have h : s.drop i <+: pat ↔ s.drop i <+: pat.drop 0 := by rw [List.drop_zero]
  rw [h, prefix_drop_iff]
  constructor
  · intro hall k hk
    have := hall k (by rw [List.length_drop]; omega)
    rw [Nat.zero_add, List.getElem?_drop] at this
    exact this
  · intro hall k hk
    rw [List.length_drop] at hk
    rw [Nat.zero_add, List.getElem?_drop]
    exact hall k (by omega)

/-- Up to a cut, the text and the part before the cut agree. -/
theorem getElem?_take_lt {s : List α} {n k : Nat} (h : k < n) : (s.take n)[k]? = s[k]? := by
  rw [List.getElem?_take, if_pos h]

theorem headed_iff {c : α} {pat : List α} : Headed c pat ↔ pat.head? = some c ∧ c ∉ pat.tail := by
  constructor
  · rintro ⟨r, rfl, hr⟩
    exact ⟨rfl, hr⟩
  · rintro ⟨hc, hr⟩
    exact ⟨pat.tail, (List.cons_head?_tail hc).symm, hr⟩

namespace Headed

variable {c : α} {pat s : List α} {i : Nat}

theorem length_pos (h : Headed c pat) : 0 < pat.length := by
  obtain ⟨r, rfl, -⟩ := h
  exact Nat.succ_pos _

theorem getElem?_zero (h : Headed c pat) : pat[0]? = some c := by
  obtain ⟨r, rfl, -⟩ := h
  rfl

/-- Only the first element is `c`. -/
theorem getElem?_ne (h : Headed c pat) {k : Nat} (hk : 0 < k) : pat[k]? ≠ some c := by
  obtain ⟨r, rfl, hr⟩ := h
  intro hget
  obtain ⟨k, rfl⟩ : ∃ j, k = j + 1 := ⟨k - 1, by omega⟩
  rw [List.getElem?_cons_succ] at hget
  exact hr (List.mem_of_getElem? hget)

/-- An occurrence starts with `c`, … -/
theorem head (h : Headed c pat) (hp : pat <+: s.drop i) : s[i]? = some c := by
  have := (prefix_drop_iff).mp hp 0 h.length_pos
  rw [h.getElem?_zero] at this
  exact this

/-- … and has no other `c`. -/
theorem inner_ne (h : Headed c pat) (hp : pat <+: s.drop i) {j : Nat} (hij : i < j)
    (hj : j < i + pat.length) : s[j]? ≠ some c := by
  have hget := (prefix_drop_iff).mp hp (j - i) (by omega)
  rw [show i + (j - i) = j by omega] at hget
  rw [hget]
  exact h.getElem?_ne (by omega)

/-- Occurrences do not overlap. -/
theorem apart {pat' : List α} (h : Headed c pat) (h' : Headed c pat') (hp : pat <+: s.drop i) {j : Nat}
    (hp' : pat' <+: s.drop j) (hij : i < j) : i + pat.length ≤ j := by
  by_contra hlt
  exact h.inner_ne hp hij (by omega) (h'.head hp')

/-- A partial occurrence starts with `c`, … -/
theorem partial_head (h : Headed c pat) (hp : Partial pat s i) : s[i]? = some c := by
  have := (drop_prefix_iff).mp hp.2.2 0 hp.1
  rw [h.getElem?_zero] at this
  exact this.symm

/-- … and has no other `c`. -/
theorem partial_inner_ne (h : Headed c pat) (hp : Partial pat s i) {j : Nat} (hij : i < j)
    (hj : j < s.length) : s[j]? ≠ some c := by
  have hget := (drop_prefix_iff).mp hp.2.2 (j - i) (by omega)
  rw [show i + (j - i) = j by omega] at hget
  rw [← hget]
  exact h.getElem?_ne (by omega)

/-- **Cuts.** An occurrence that starts before a cut and does not end before it is partial there. -/
theorem partial_of_cut {n : Nat} (hp : pat <+: s.drop i) (hi : i < n) (hn : n ≤ s.length)
    (hcut : n < i + pat.length) : Partial pat (s.take n) i := by
  have hlen : (s.take n).length = n := by
    rw [List.length_take]
    omega
  refine ⟨by omega, by omega, (drop_prefix_iff).mpr ?_⟩
  intro k hk
  rw [hlen] at hk
  rw [getElem?_take_lt hk]
  exact ((prefix_drop_iff).mp hp k (by omega)).symm

/-- A partial occurrence stays one when the text is cut behind its start. -/
theorem partial_take {n : Nat} (hp : Partial pat s i) (hi : i < n) (hn : n ≤ s.length) :
    Partial pat (s.take n) i := by
  obtain ⟨-, hlen, hpre⟩ := hp
  have htake : (s.take n).length = n := by
    rw [List.length_take]
    omega
  refine ⟨by omega, by omega, (drop_prefix_iff).mpr ?_⟩
  intro k hk
  rw [htake] at hk
  rw [getElem?_take_lt hk]
  exact (drop_prefix_iff).mp hpre k (by omega)

end Headed

/-- Partial occurrences of patterns with one head are at one place. -/
theorem Partial.unique {c : α} {pat pat' s : List α} {i j : Nat} (hp : Headed c pat)
    (hp' : Headed c pat') (hi : Partial pat s i) (hj : Partial pat' s j) : i = j := by
  by_contra hne
  obtain hlt | hlt := Nat.lt_or_gt_of_ne hne
  · exact hp.partial_inner_ne hi hlt hj.1 (hp'.partial_head hj)
  · exact hp'.partial_inner_ne hj hlt hi.1 (hp.partial_head hi)

/-! ### The backward scan -/

variable [DecidableEq α]

/-- The last index before `i` and not before `scan` with the element `c`. -/
def lastIdx (c : α) (s : List α) (scan : Nat) : Nat → Option Nat
  | 0     => none
  | i + 1 =>
    if scan ≤ i then
      if s[i]? = some c then some i else lastIdx c s scan i
    else none

theorem lastIdx_some {c : α} {s : List α} {scan limit m : Nat}
    (h : lastIdx c s scan limit = some m) :
    scan ≤ m ∧ m < limit ∧ s[m]? = some c ∧ ∀ k, m < k → k < limit → s[k]? ≠ some c := by
  induction limit with
  | zero => exact absurd h (by simp [lastIdx])
  | succ i ih =>
    unfold lastIdx at h
    by_cases hscan : scan ≤ i
    · rw [if_pos hscan] at h
      by_cases hc : s[i]? = some c
      · rw [if_pos hc] at h
        obtain rfl := Option.some.inj h
        exact ⟨hscan, Nat.lt_succ_self _, hc, fun k hk hk' => by omega⟩
      · rw [if_neg hc] at h
        obtain ⟨h1, h2, h3, h4⟩ := ih h
        refine ⟨h1, by omega, h3, fun k hk hk' => ?_⟩
        by_cases hki : k = i
        · rw [hki]
          exact hc
        · exact h4 k hk (by omega)
    · rw [if_neg hscan] at h
      exact absurd h (by simp)

theorem lastIdx_none {c : α} {s : List α} {scan limit : Nat} (h : lastIdx c s scan limit = none) :
    ∀ k, scan ≤ k → k < limit → s[k]? ≠ some c := by
  induction limit with
  | zero => exact fun k _ hk => by omega
  | succ i ih =>
    intro k hk hk'
    unfold lastIdx at h
    rw [if_pos (by omega)] at h
    by_cases hc : s[i]? = some c
    · rw [if_pos hc] at h
      exact absurd h (by simp)
    · rw [if_neg hc] at h
      by_cases hki : k = i
      · rw [hki]
        exact hc
      · exact ih h k hk (by omega)

/-- Where the tail of `s` up to `limit` starts that may be the beginning of one of `pats`, or
    `limit`.  Only the last `window` elements and none before `start` are looked at. -/
def holdBack (c : α) (pats : List (List α)) (window : Nat) (s : List α) (start limit : Nat) : Nat :=
  match lastIdx c s (if start + window < limit then limit - window else start) limit with
  | some m =>
    if pats.any (fun pat => decide (limit - m < pat.length) && ((s.take limit).drop m).isPrefixOf pat)
    then m else limit
  | none   => limit

/-- **Hold-back.** The tail that is held is a partial occurrence, and no partial occurrence is
    sent. -/
theorem holdBack_spec {c : α} {pats : List (List α)} {window : Nat} {s : List α} {start limit : Nat}
    (hhead : ∀ pat ∈ pats, Headed c pat) (hwin : ∀ pat ∈ pats, pat.length ≤ window)
    (hstart : start ≤ limit) (hlimit : limit ≤ s.length) :
    start ≤ holdBack c pats window s start limit ∧ holdBack c pats window s start limit ≤ limit ∧
      (holdBack c pats window s start limit < limit →
        ∃ pat ∈ pats, Partial pat (s.take limit) (holdBack c pats window s start limit)) ∧
      ∀ k, start ≤ k → (∃ pat ∈ pats, Partial pat (s.take limit) k) →
        holdBack c pats window s start limit = k := by
  have hlen : (s.take limit).length = limit := by
    rw [List.length_take]
    omega
  unfold holdBack
  -- a partial occurrence is inside the window, and its head is the last `c`
  have hfound : ∀ k, start ≤ k → (∃ pat ∈ pats, Partial pat (s.take limit) k) →
      lastIdx c s (if start + window < limit then limit - window else start) limit = some k := by
    intro k hk hpart
    obtain ⟨pat, hpat, hp⟩ := hpart
    obtain ⟨hklt, hshort, -⟩ := id hp
    rw [hlen] at hklt hshort
    have hw := hwin pat hpat
    have hhd := (hhead pat hpat).partial_head hp
    rw [getElem?_take_lt hklt] at hhd
    have hscan : (if start + window < limit then limit - window else start) ≤ k := by
      split <;> omega
    cases hl : lastIdx c s (if start + window < limit then limit - window else start) limit with
    | none => exact absurd hhd (lastIdx_none hl k hscan hklt)
    | some m =>
      obtain ⟨-, hm, hmc, hlast⟩ := lastIdx_some hl
      obtain hlt | heq | hgt := Nat.lt_trichotomy m k
      · exact absurd hhd (hlast k hlt hklt)
      · rw [heq]
      · have hne := (hhead pat hpat).partial_inner_ne hp hgt (by omega)
        rw [getElem?_take_lt hm] at hne
        exact absurd hmc hne
  cases hl : lastIdx c s (if start + window < limit then limit - window else start) limit with
  | none =>
    refine ⟨hstart, Nat.le_refl _, fun h => absurd h (Nat.lt_irrefl _), ?_⟩
    intro k hk hpart
    have := hfound k hk hpart
    rw [hl] at this
    exact absurd this (by simp)
  | some m =>
    obtain ⟨hscan, hm, hmc, -⟩ := lastIdx_some hl
    have hsm : start ≤ m := by
      by_cases hw : start + window < limit
      · rw [if_pos hw] at hscan
        omega
      · rw [if_neg hw] at hscan
        exact hscan
    dsimp only
    by_cases hany : pats.any (fun pat =>
        decide (limit - m < pat.length) && ((s.take limit).drop m).isPrefixOf pat) = true
    · rw [if_pos hany]
      refine ⟨hsm, by omega, fun _ => ?_, ?_⟩
      · obtain ⟨pat, hpat, hcond⟩ := List.any_eq_true.mp hany
        rw [Bool.and_eq_true, decide_eq_true_eq, List.isPrefixOf_iff_prefix] at hcond
        exact ⟨pat, hpat, by omega, by omega, hcond.2⟩
      · intro k hk hpart
        have := hfound k hk hpart
        rw [hl] at this
        exact Option.some.inj this
    · rw [if_neg hany]
      refine ⟨hstart, Nat.le_refl _, fun h => absurd h (Nat.lt_irrefl _), ?_⟩
      intro k hk hpart
      have hmk := hfound k hk hpart
      rw [hl] at hmk
      obtain rfl := Option.some.inj hmk
      obtain ⟨pat, hpat, -, hshort, hpre⟩ := hpart
      refine absurd (List.any_eq_true.mpr ⟨pat, hpat, ?_⟩) hany
      rw [Bool.and_eq_true, decide_eq_true_eq, List.isPrefixOf_iff_prefix]
      exact ⟨by omega, hpre⟩

section

variable {c : α} {pats : List (List α)} {window : Nat} {s : List α} {start limit : Nat}

/-- Only the elements before the limit are read. -/
theorem holdBack_take {n : Nat} (h : limit ≤ n) :
    holdBack c pats window (s.take n) start limit = holdBack c pats window s start limit := by
  have hidx : ∀ scan i, i ≤ n → lastIdx c (s.take n) scan i = lastIdx c s scan i := by
    intro scan i
    induction i with
    | zero => exact fun _ => rfl
    | succ i ih =>
      intro hi
      unfold lastIdx
      rw [getElem?_take_lt (show i < n by omega), ih (by omega)]
  unfold holdBack
  rw [hidx _ _ h, List.take_take, Nat.min_eq_left h]

variable (hhead : ∀ pat ∈ pats, Headed c pat) (hwin : ∀ pat ∈ pats, pat.length ≤ window)
include hhead hwin

/-- **More text** does not take back what was sent. -/
theorem holdBack_mono {limit' : Nat} (hstart : start ≤ limit) (hle : limit ≤ limit')
    (hlimit : limit' ≤ s.length) :
    holdBack c pats window s start limit ≤ holdBack c pats window s start limit' := by
  obtain ⟨-, hub, -, huniq⟩ := holdBack_spec hhead hwin hstart (Nat.le_trans hle hlimit)
  obtain ⟨hlb, -, hpart, -⟩ := holdBack_spec hhead hwin (Nat.le_trans hstart hle) hlimit
  by_contra hlt
  -- a tail held later and before the limit would have been held already
  obtain ⟨pat, hpat, hp⟩ := hpart (by omega)
  have hcut := Headed.partial_take hp (n := limit) (by omega)
    (by rw [List.length_take]; omega)
  rw [List.take_take, Nat.min_eq_left hle] at hcut
  have := huniq _ hlb ⟨pat, hpat, hcut⟩
  omega

/-- **Going on** from a later start holds the same tail. -/
theorem holdBack_restart {start' : Nat} (hstart : start ≤ start')
    (hle : start' ≤ holdBack c pats window s start limit) (hlimit : limit ≤ s.length)
    (hsl : start ≤ limit) :
    holdBack c pats window s start' limit = holdBack c pats window s start limit := by
  obtain ⟨-, hub, hpart, huniq⟩ := holdBack_spec hhead hwin hsl hlimit
  obtain ⟨hlb', hub', hpart', huniq'⟩ :=
    holdBack_spec hhead hwin (Nat.le_trans hle hub) hlimit
  by_cases hlt : holdBack c pats window s start limit < limit
  · exact huniq' _ hle (hpart hlt)
  · by_cases hlt' : holdBack c pats window s start' limit < limit
    · exact (huniq _ (Nat.le_trans hstart hlb') (hpart' hlt')).symm
    · omega

end

end DS4.Lib
