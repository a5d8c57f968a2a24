import DS4.Server.Tracker
import DS4.Server.ToolChunks

namespace DS4.Server

/-!
# Server — the DSML tracker on growing prefixes

The grammar of a block, as far as the tracker reads it, is stated apart from the tracker:
`InBlock`, `ParamTag` and `ClosesValue` speak of positions in a text.  A tracker that is fed
prefixes stays on the positions of the grammar (`Tracks`), unless a prefix ends one byte into the
end tag that closes a value: the lone `<` is stepped over, and the end tag is missed.

* `trackStep_cut` — one pass on a prefix is a pass on the text, or stops where the text goes on.
* `tracker_cut` — an update with a prefix and one with the text are one update with the text.
* `scan_eq_track` — the reference recognizer.
-/

/-! ### Markers in a prefix -/

section Prefixes

variable {s pat : Bytes} {n p : Nat}

theorem fullLit_iff (hpat : 0 < pat.length) (hn : n ≤ s.length) :
    rawFullLit (s.take n) n p pat = true ↔ pat <+: s.drop p ∧ p + pat.length ≤ n := by
  unfold rawFullLit slice
  rw [List.take_take, Nat.min_self, Bool.and_eq_true, decide_eq_true_eq,
    List.isPrefixOf_iff_prefix, Lib.prefix_drop_take_iff hpat hn]
  constructor
  · rintro ⟨-, h⟩
    exact h
  · intro h
    exact ⟨by omega, h⟩

theorem partialMin_iff :
    rawPartialLitMin (s.take n) n p pat 2 = true ↔
      p + 2 ≤ n ∧ n < p + pat.length ∧ (s.take n).drop p <+: pat := by
  unfold rawPartialLitMin rawPartialLit slice
  rw [List.take_take, Nat.min_self, Bool.and_eq_true, Bool.and_eq_true, decide_eq_true_eq,
    decide_eq_true_eq, List.isPrefixOf_iff_prefix]
  constructor
  · rintro ⟨⟨⟨h1, h2⟩, h3⟩, h4⟩
    exact ⟨by omega, by omega, h3⟩
  · rintro ⟨h1, h2, h3⟩
    exact ⟨⟨⟨by omega, by omega⟩, h3⟩, by omega⟩

theorem findLit_eq_some_iff {q : Nat} (hpat : 0 < pat.length) (hn : n ≤ s.length) :
    findLitBounded (s.take n) n p pat = some q ↔
      (p ≤ q ∧ pat <+: s.drop q ∧ q + pat.length ≤ n) ∧
        ∀ j, p ≤ j → j < q → ¬ pat <+: s.drop j := by
  have hdrop : ∀ i, pat <+: ((s.take n).drop p).drop i ↔
      pat <+: s.drop (p + i) ∧ p + i + pat.length ≤ n := by
    intro i
    rw [List.drop_drop]
    exact Lib.prefix_drop_take_iff hpat hn
  unfold findLitBounded slice
  rw [List.take_take, Nat.min_self, Option.map_eq_some_iff]
  constructor
  · rintro ⟨i, hi, rfl⟩
    obtain ⟨-, hp, hmin⟩ := (Lib.findSub_eq_some_iff).mp hi
    rw [hdrop] at hp
    refine ⟨⟨Nat.le_add_right _ _, hp.1, hp.2⟩, fun j hj hjq hpre => ?_⟩
    apply hmin (j - p) (by omega)
    rw [hdrop, show p + (j - p) = j by omega]
    exact ⟨hpre, by omega⟩
  · rintro ⟨⟨hle, hp, hfit⟩, hmin⟩
    refine ⟨q - p, (Lib.findSub_eq_some_iff).mpr ⟨?_, ?_, ?_⟩, by omega⟩
    · rw [List.length_drop, List.length_take]
      omega
    · rw [hdrop, show p + (q - p) = q by omega]
      exact ⟨hp, hfit⟩
    · intro j hj hpre
      rw [hdrop] at hpre
      exact hmin (p + j) (by omega) (by omega) hpre.1

theorem findLit_eq_none_iff (hpat : 0 < pat.length) (hn : n ≤ s.length) :
    findLitBounded (s.take n) n p pat = none ↔
      ∀ q, p ≤ q → q + pat.length ≤ n → ¬ pat <+: s.drop q := by
  unfold findLitBounded slice
  rw [List.take_take, Nat.min_self, Option.map_eq_none_iff, Lib.findSub_eq_none_iff]
  constructor
  · intro h q hq hfit hpre
    apply h (q - p)
    · rw [List.length_drop, List.length_take]
      omega
    · rw [List.drop_drop, show p + (q - p) = q by omega, Lib.prefix_drop_take_iff hpat hn]
      exact ⟨hpre, hfit⟩
  · intro h i _ hpre
    rw [List.drop_drop, Lib.prefix_drop_take_iff hpat hn] at hpre
    exact h (p + i) (Nat.le_add_right _ _) hpre.2 hpre.1

end Prefixes

/-! ### Block starts -/

/-- The block start at `p` is the first from `start` on that lies before `n`. -/
structure FirstStart (s : Bytes) (n start : Nat) (syn : DsmlSyntax) (p : Nat) : Prop where
  known : syn ∈ dsmlSyntaxes
  le : start ≤ p
  here : syn.toolCallsStart <+: s.drop p
  fits : p + syn.toolCallsStart.length ≤ n
  first : ∀ syn' ∈ dsmlSyntaxes, ∀ j, start ≤ j → j < p → ¬ syn'.toolCallsStart <+: s.drop j

theorem start_pos {syn : DsmlSyntax} (h : syn ∈ dsmlSyntaxes) : 0 < syn.toolCallsStart.length :=
  marker_pos h (by simp [DsmlSyntax.markers])

theorem betterStart_fold {raw : Bytes} {rawLen start : Nat} (syns : List DsmlSyntax) :
    (∀ syn p, syns.foldl (betterStart raw rawLen start) none = some (syn, p) →
      (syn ∈ syns ∧ findLitBounded raw rawLen start syn.toolCallsStart = some p) ∧
      ∀ syn' ∈ syns, ∀ q, findLitBounded raw rawLen start syn'.toolCallsStart = some q → p ≤ q) ∧
    (syns.foldl (betterStart raw rawLen start) none = none →
      ∀ syn ∈ syns, findLitBounded raw rawLen start syn.toolCallsStart = none) := by
  induction syns using List.reverseRecOn with
  | nil => exact ⟨fun _ _ h => absurd h (by simp), fun _ _ h => absurd h (by simp)⟩
  | append_singleton syns last ih =>
    rw [List.foldl_append, List.foldl_cons, List.foldl_nil]
    obtain ⟨hsome, hnone⟩ := ih
    generalize syns.foldl (betterStart raw rawLen start) none = best at hsome hnone ⊢
    cases hlast : findLitBounded raw rawLen start last.toolCallsStart with
    | none =>
      have heq : betterStart raw rawLen start best last = best := by
        unfold betterStart
        rw [hlast]
      rw [heq]
      refine ⟨fun syn p h => ?_, fun h syn hsyn => ?_⟩
      · obtain ⟨⟨hmem, hfind⟩, hmin⟩ := hsome syn p h
        refine ⟨⟨List.mem_append_left _ hmem, hfind⟩, fun syn' hsyn' q hq => ?_⟩
        obtain hsyn' | hsyn' := List.mem_append.mp hsyn'
        · exact hmin syn' hsyn' q hq
        · rw [List.mem_singleton.mp hsyn', hlast] at hq
          exact absurd hq (by simp)
      · obtain hsyn | hsyn := List.mem_append.mp hsyn
        · exact hnone h syn hsyn
        · rw [List.mem_singleton.mp hsyn]
          exact hlast
    | some l =>
      cases best with
      | none =>
        have heq : betterStart raw rawLen start none last = some (last, l) := by
          unfold betterStart
          rw [hlast]
        rw [heq]
        refine ⟨fun syn p h => ?_, fun h => absurd h (by simp)⟩
        obtain ⟨rfl, rfl⟩ := Prod.mk.inj (Option.some.inj h)
        refine ⟨⟨List.mem_append_right _ (List.mem_singleton_self _), hlast⟩, fun syn' hsyn' q hq => ?_⟩
        obtain hsyn' | hsyn' := List.mem_append.mp hsyn'
        · rw [hnone rfl syn' hsyn'] at hq
          exact absurd hq (by simp)
        · rw [List.mem_singleton.mp hsyn', hlast] at hq
          exact le_of_eq (Option.some.inj hq)
      | some b =>
        obtain ⟨bestSyn, b⟩ := b
        obtain ⟨⟨hmem, hfind⟩, hmin⟩ := hsome bestSyn b rfl
        by_cases hlt : l < b
        · have heq : betterStart raw rawLen start (some (bestSyn, b)) last = some (last, l) := by
            unfold betterStart
            rw [hlast]
            exact if_pos hlt
          rw [heq]
          refine ⟨fun syn p h => ?_, fun h => absurd h (by simp)⟩
          obtain ⟨rfl, rfl⟩ := Prod.mk.inj (Option.some.inj h)
          refine ⟨⟨List.mem_append_right _ (List.mem_singleton_self _), hlast⟩, fun syn' hsyn' q hq => ?_⟩
          obtain hsyn' | hsyn' := List.mem_append.mp hsyn'
          · exact le_of_lt (lt_of_lt_of_le hlt (hmin syn' hsyn' q hq))
          · rw [List.mem_singleton.mp hsyn', hlast] at hq
            exact le_of_eq (Option.some.inj hq)
        · have heq : betterStart raw rawLen start (some (bestSyn, b)) last = some (bestSyn, b) := by
            unfold betterStart
            rw [hlast]
            exact if_neg hlt
          rw [heq]
          refine ⟨fun syn p h => ?_, fun h => absurd h (by simp)⟩
          obtain ⟨rfl, rfl⟩ := Prod.mk.inj (Option.some.inj h)
          refine ⟨⟨List.mem_append_left _ hmem, hfind⟩, fun syn' hsyn' q hq => ?_⟩
          obtain hsyn' | hsyn' := List.mem_append.mp hsyn'
          · exact hmin syn' hsyn' q hq
          · rw [List.mem_singleton.mp hsyn', hlast] at hq
            have := Option.some.inj hq
            omega

theorem headed_start {syn : DsmlSyntax} (h : syn ∈ dsmlSyntaxes) :
    Lib.Headed '<'.toUInt8 syn.toolCallsStart :=
  headed_marker h (by simp [DsmlSyntax.markers])

theorem findToolStart_some {s : Bytes} {n start q : Nat} {syn : DsmlSyntax} (hn : n ≤ s.length)
    (h : dsmlFindToolStartFrom (s.take n) n start = some (syn, q)) :
    ∃ p, q = p + syn.toolCallsStart.length ∧ FirstStart s n start syn p := by
  obtain ⟨⟨syn', p⟩, hfold, heq⟩ := Option.map_eq_some_iff.mp h
  obtain ⟨rfl, rfl⟩ := Prod.mk.inj heq
  obtain ⟨⟨hmem, hfind⟩, hmin⟩ := (betterStart_fold dsmlSyntaxes).1 syn' p hfold
  obtain ⟨⟨hle, hp, hfit⟩, -⟩ := (findLit_eq_some_iff (start_pos hmem) hn).mp hfind
  refine ⟨p, rfl, hmem, hle, hp, hfit, fun syn₂ hsyn₂ j hj hjp hpre => ?_⟩
  -- a start before `p` ends before it, so that the search would have found it
  have hapart := (headed_start hsyn₂).apart (headed_start hmem) hpre hp hjp
  cases hfind₂ : findLitBounded (s.take n) n start syn₂.toolCallsStart with
  | none =>
    refine (findLit_eq_none_iff (start_pos hsyn₂) hn).mp hfind₂ j hj ?_ hpre
    exact le_trans hapart (le_trans (Nat.le_add_right _ _) hfit)
  | some q =>
    have hpq := hmin syn₂ hsyn₂ q hfind₂
    obtain ⟨-, hfirst⟩ := (findLit_eq_some_iff (start_pos hsyn₂) hn).mp hfind₂
    exact hfirst j hj (by omega) hpre

theorem findToolStart_none {s : Bytes} {n start : Nat} (hn : n ≤ s.length)
    (h : dsmlFindToolStartFrom (s.take n) n start = none) {syn : DsmlSyntax}
    (hsyn : syn ∈ dsmlSyntaxes) {j : Nat} (hj : start ≤ j)
    (hfit : j + syn.toolCallsStart.length ≤ n) : ¬ syn.toolCallsStart <+: s.drop j := by
  have hfold := (betterStart_fold dsmlSyntaxes).2 (Option.map_eq_none_iff.mp h) syn hsyn
  exact (findLit_eq_none_iff (start_pos hsyn) hn).mp hfold j hj hfit

/-- There is one first start. -/
theorem FirstStart.unique {s : Bytes} {n n' start start' p p' : Nat} {syn syn' : DsmlSyntax}
    (h : FirstStart s n start syn p) (h' : FirstStart s n' start' syn' p') (hp : start ≤ p')
    (hp' : start' ≤ p) : p = p' ∧ syn = syn' := by
  have heq : p = p' := by
    obtain hlt | heq | hlt := Nat.lt_trichotomy p p'
    · exact absurd h.here (h'.first syn h.known p hp' hlt)
    · exact heq
    · exact absurd h'.here (h.first syn' h'.known p' hp hlt)
  refine ⟨heq, ?_⟩
  have hdistinct : ∀ a ∈ dsmlSyntaxes, ∀ b ∈ dsmlSyntaxes,
      a.toolCallsStart.isPrefixOf b.toolCallsStart = true → a = b := by decide +kernel
  subst heq
  obtain hle | hle := Nat.le_total syn.toolCallsStart.length syn'.toolCallsStart.length
  · apply hdistinct syn h.known syn' h'.known
    rw [List.isPrefixOf_iff_prefix]
    exact List.prefix_of_prefix_length_le h.here h'.here hle
  · symm
    apply hdistinct syn' h'.known syn h.known
    rw [List.isPrefixOf_iff_prefix]
    exact List.prefix_of_prefix_length_le h'.here h.here hle

/-- The search finds the first start, when it is behind `start` and has arrived. -/
theorem findToolStart_eq {s : Bytes} {n n' start start' p : Nat} {syn : DsmlSyntax}
    (hn : n ≤ s.length) (h : FirstStart s n' start' syn p) (hle : start' ≤ start)
    (hp : start ≤ p) (hfit : p + syn.toolCallsStart.length ≤ n) :
    dsmlFindToolStartFrom (s.take n) n start = some (syn, p + syn.toolCallsStart.length) := by
  cases hfind : dsmlFindToolStartFrom (s.take n) n start with
  | none => exact absurd h.here (findToolStart_none hn hfind h.known hp hfit)
  | some b =>
    obtain ⟨syn', q⟩ := b
    obtain ⟨p', rfl, h'⟩ := findToolStart_some hn hfind
    obtain ⟨rfl, rfl⟩ := h.unique h' (le_trans hle h'.le) hp
    rfl

/-! ### The grammar of a block -/

/-- A parameter tag starts at `p`, its value at `v`; `str` is its `string` attribute. -/
structure ParamTag (s : Bytes) (syn : DsmlSyntax) (p v : Nat) (str : Bool) : Prop where
  here : syn.paramStart <+: s.drop p
  tagEnd : ∃ e, tagEndFrom s s.length p = some e ∧ v = e + 1
  string : dsmlAttrIsStringTrue s p v = str

/-- Where the JSON text from `v` up to `e` ends. -/
def jsonFlags (s : Bytes) (v e : Nat) : JsonFlags := (slice s v e).foldl JsonFlags.next .start

/-- No end tag between the start of a string value and `e`. -/
def StringOpen (s : Bytes) (syn : DsmlSyntax) (v e : Nat) : Prop :=
  v ≤ e ∧ ∀ j, v ≤ j → j < e → ¬ syn.paramEnd <+: s.drop j

/-- No end tag outside JSON strings between the start of a JSON value and `e`. -/
def JsonOpen (s : Bytes) (syn : DsmlSyntax) (v e : Nat) : Prop :=
  v ≤ e ∧ ∀ j, v ≤ j → j < e → syn.paramEnd <+: s.drop j → (jsonFlags s v j).inString = true

/-- Positions between the tags of the first block of a text. -/
inductive InBlock (s : Bytes) (syn : DsmlSyntax) : Nat → Prop where
  | start {p : Nat} (h : FirstStart s s.length 0 syn p) :
    InBlock s syn (p + syn.toolCallsStart.length)
  | space {p : Nat} {c : UInt8} (h : InBlock s syn p) (hc : s[p]? = some c)
    (hspace : isspace c = true) : InBlock s syn (p + 1)
  | invokeEnd {p : Nat} (h : InBlock s syn p) (here : syn.invokeEnd <+: s.drop p) :
    InBlock s syn (p + syn.invokeEnd.length)
  | invokeStart {p e : Nat} (h : InBlock s syn p) (here : syn.invokeStart <+: s.drop p)
    (hend : tagEndFrom s s.length p = some e) : InBlock s syn (e + 1)
  | stringValue {p v e : Nat} (h : InBlock s syn p) (tag : ParamTag s syn p v true)
    (hopen : StringOpen s syn v e) (hend : syn.paramEnd <+: s.drop e) :
    InBlock s syn (e + syn.paramEnd.length)
  | jsonValue {p v e : Nat} (h : InBlock s syn p) (tag : ParamTag s syn p v false)
    (hopen : JsonOpen s syn v e) (hout : (jsonFlags s v e).inString = false)
    (hend : syn.paramEnd <+: s.drop e) : InBlock s syn (e + syn.paramEnd.length)

/-- An end tag at `k`, or what the end of the text leaves of one: two bytes or more. -/
def EndTagAt (s : Bytes) (syn : DsmlSyntax) (k : Nat) : Prop :=
  syn.paramEnd <+: s.drop k ∨ (k + 2 ≤ s.length ∧ Lib.Partial syn.paramEnd s k)

/-- The end tag at `k` closes a value. -/
def ClosesValue (s : Bytes) (k : Nat) : Prop :=
  ∃ syn p v, InBlock s syn p ∧ EndTagAt s syn k ∧
    ((ParamTag s syn p v true ∧ StringOpen s syn v k) ∨
      (ParamTag s syn p v false ∧ JsonOpen s syn v k ∧ (jsonFlags s v k).inString = false))

/-- A tracker stands where the grammar of the text has a position of its mode. -/
inductive Tracks (s : Bytes) : TrackPos → Prop where
  | search {pos : Nat}
    (h : ∀ syn ∈ dsmlSyntaxes, ∀ j, syn.toolCallsStart <+: s.drop j → pos ≤ j) :
    Tracks s ⟨.search, pos⟩
  | structural {syn : DsmlSyntax} {pos : Nat} (h : InBlock s syn pos) :
    Tracks s ⟨.structural syn, pos⟩
  | stringBody {syn : DsmlSyntax} {p v pos : Nat} (h : InBlock s syn p)
    (tag : ParamTag s syn p v true) (hopen : StringOpen s syn v pos) :
    Tracks s ⟨.stringBody syn, pos⟩
  | jsonParam {syn : DsmlSyntax} {p v pos : Nat} (h : InBlock s syn p)
    (tag : ParamTag s syn p v false) (hopen : JsonOpen s syn v pos) :
    Tracks s ⟨.jsonParam syn (jsonFlags s v pos), pos⟩
  | done {syn : DsmlSyntax} {pos : Nat} : Tracks s ⟨.done syn, pos⟩

theorem InBlock.known {s : Bytes} {syn : DsmlSyntax} {p : Nat} (h : InBlock s syn p) :
    syn ∈ dsmlSyntaxes := by
  induction h with
  | start h => exact h.known
  | space _ _ _ ih | invokeEnd _ _ ih | invokeStart _ _ _ ih | stringValue _ _ _ _ ih => exact ih
  | jsonValue _ _ _ _ _ ih => exact ih

theorem InBlock.spaces {s : Bytes} {syn : DsmlSyntax} {p q : Nat} (h : InBlock s syn p)
    (hpq : p ≤ q) (hq : q ≤ s.length)
    (hspace : ∀ j, p ≤ j → j < q → ∀ c, s[j]? = some c → isspace c = true) :
    InBlock s syn q := by
  induction q, hpq using Nat.le_induction with
  | base => exact h
  | succ q hpq ih =>
    have hget : s[q]? = some s[q] := List.getElem?_eq_getElem hq
    apply InBlock.space (ih (by omega) fun j hj hjq => hspace j hj (by omega)) hget
    exact hspace q hpq (Nat.lt_succ_self q) _ hget

theorem jsonFlags_self (s : Bytes) (v : Nat) : jsonFlags s v v = .start := by
  unfold jsonFlags
  rw [slice_self_le (le_refl v)]
  rfl

theorem jsonFlags_succ {s : Bytes} {v e : Nat} (hve : v ≤ e) (he : e < s.length) :
    jsonFlags s v (e + 1) = (jsonFlags s v e).next (s.getD e 0) := by
  unfold jsonFlags
  have hslice : slice s e (e + 1) = [s.getD e 0] := by
    unfold slice
    rw [List.getD_eq_getElem?_getD, List.getElem?_eq_getElem he, Option.getD_some,
      List.take_succ_eq_append_getElem he, List.drop_append_of_le_length
        (by rw [List.length_take]; omega), List.drop_eq_nil_of_le (by rw [List.length_take]; omega)]
    rfl
  rw [slice_append hve (Nat.le_succ e), hslice, List.foldl_append]
  rfl

/-! ### Tags -/

/-- The tags that a block is made of, apart from its start. -/
def DsmlSyntax.tags (syn : DsmlSyntax) : List Bytes :=
  [syn.toolCallsEnd, syn.invokeEnd, syn.invokeStart, syn.paramStart]

/-- The bytes of the tags of a spelling. -/
theorem syntax_tags : ∀ syn ∈ dsmlSyntaxes,
    (∀ a ∈ syn.tags, 0 < a.length) ∧ (∀ a ∈ syn.tags, ∀ b ∈ syn.tags, a.isPrefixOf b = true → a = b) ∧
      syn.tags.Nodup ∧ syn.toolCallsStart.length ≤ dsmlMaxToolStartLen ∧ 1 < syn.paramEnd.length := by
  decide +kernel

theorem tag_pos {syn : DsmlSyntax} (h : syn ∈ dsmlSyntaxes) {a : Bytes} (ha : a ∈ syn.tags) :
    0 < a.length :=
  (syntax_tags syn h).1 a ha

/-- One tag stands at a place. -/
theorem tag_unique {syn : DsmlSyntax} (h : syn ∈ dsmlSyntaxes) {a b t : Bytes} (ha : a ∈ syn.tags)
    (hb : b ∈ syn.tags) (hat : a <+: t) (hbt : b <+: t) : a = b := by
  have hall := (syntax_tags syn h).2.1
  obtain hle | hle := Nat.le_total a.length b.length
  · apply hall a ha b hb
    rw [List.isPrefixOf_iff_prefix]
    exact List.prefix_of_prefix_length_le hat hbt hle
  · symm
    apply hall b hb a ha
    rw [List.isPrefixOf_iff_prefix]
    exact List.prefix_of_prefix_length_le hbt hat hle

theorem tags_distinct {syn : DsmlSyntax} (h : syn ∈ dsmlSyntaxes) : syn.tags.Nodup :=
  (syntax_tags syn h).2.2.1

section Tags

variable {s : Bytes} {n p : Nat} {syn : DsmlSyntax} (hsyn : syn ∈ dsmlSyntaxes)
  (hn : n ≤ s.length)
include hsyn hn

theorem fullLit_other {a b : Bytes} (ha : a ∈ syn.tags) (hb : b ∈ syn.tags) (hab : a ≠ b)
    (hfull : rawFullLit (s.take n) n p a = true) : ¬ rawFullLit (s.take n) n p b = true := by
  intro hfull'
  have h1 := ((fullLit_iff (tag_pos hsyn ha) hn).mp hfull).1
  have h2 := ((fullLit_iff (tag_pos hsyn hb) hn).mp hfull').1
  exact hab (tag_unique hsyn ha hb h1 h2)

theorem fullLit_lt {a : Bytes} (ha : a ∈ syn.tags)
    (hfull : rawFullLit (s.take n) n p a = true) : ¬ n ≤ p := by
  have h1 := ((fullLit_iff (tag_pos hsyn ha) hn).mp hfull).2
  have h2 := tag_pos hsyn ha
  omega

theorem trackTag_toolCallsEnd (h : rawFullLit (s.take n) n p syn.toolCallsEnd = true) :
    trackTag (s.take n) n p syn = .stop ⟨.done syn, p + syn.toolCallsEnd.length⟩ .outside := by
  unfold trackTag
  rw [if_neg (fullLit_lt hsyn hn (by simp [DsmlSyntax.tags]) h), if_pos h]

theorem trackTag_invokeEnd (h : rawFullLit (s.take n) n p syn.invokeEnd = true) :
    trackTag (s.take n) n p syn = .next ⟨.structural syn, p + syn.invokeEnd.length⟩ := by
  have hd := tags_distinct hsyn
  simp only [DsmlSyntax.tags, List.nodup_cons, List.mem_cons, not_or] at hd
  have hother := fun b hb hne => fullLit_other (b := b) hsyn hn (by simp [DsmlSyntax.tags]) hb hne h
  unfold trackTag
  rw [if_neg (fullLit_lt hsyn hn (by simp [DsmlSyntax.tags]) h),
    if_neg (hother _ (by simp [DsmlSyntax.tags]) (Ne.symm hd.1.1)), if_pos h]

theorem trackTag_invokeStart (h : rawFullLit (s.take n) n p syn.invokeStart = true) :
    trackTag (s.take n) n p syn = trackInvokeTag (s.take n) n p syn := by
  have hd := tags_distinct hsyn
  simp only [DsmlSyntax.tags, List.nodup_cons, List.mem_cons, not_or] at hd
  have hother := fun b hb hne => fullLit_other (b := b) hsyn hn (by simp [DsmlSyntax.tags]) hb hne h
  unfold trackTag
  rw [if_neg (fullLit_lt hsyn hn (by simp [DsmlSyntax.tags]) h),
    if_neg (hother _ (by simp [DsmlSyntax.tags]) (Ne.symm hd.1.2.1)),
    if_neg (hother _ (by simp [DsmlSyntax.tags]) (Ne.symm hd.2.1.1)), if_pos h]

theorem trackTag_paramStart (h : rawFullLit (s.take n) n p syn.paramStart = true) :
    trackTag (s.take n) n p syn = trackParamTag (s.take n) n p syn := by
  have hd := tags_distinct hsyn
  simp only [DsmlSyntax.tags, List.nodup_cons, List.mem_cons, not_or] at hd
  have hother := fun b hb hne => fullLit_other (b := b) hsyn hn (by simp [DsmlSyntax.tags]) hb hne h
  unfold trackTag
  rw [if_neg (fullLit_lt hsyn hn (by simp [DsmlSyntax.tags]) h),
    if_neg (hother _ (by simp [DsmlSyntax.tags]) (Ne.symm hd.1.2.2.1)),
    if_neg (hother _ (by simp [DsmlSyntax.tags]) (Ne.symm hd.2.1.2.1)),
    if_neg (hother _ (by simp [DsmlSyntax.tags]) (Ne.symm hd.2.2.1.1)), if_pos h]

omit hsyn hn in
theorem trackTag_none (h : ∀ a ∈ syn.tags, ¬ rawFullLit (s.take n) n p a = true) :
    trackTag (s.take n) n p syn = .stop ⟨.structural syn, p⟩ .structural := by
  unfold trackTag
  rw [if_neg (h _ (by simp [DsmlSyntax.tags])), if_neg (h _ (by simp [DsmlSyntax.tags])),
    if_neg (h _ (by simp [DsmlSyntax.tags])), if_neg (h _ (by simp [DsmlSyntax.tags])), ite_self]

end Tags

/-! ### One pass at a cut -/

/-- A pass on a prefix that goes on: the same pass on the text, along the grammar. -/
structure GoesOn (s : Bytes) (n : Nat) (t t' : TrackPos) : Prop where
  same : trackStep s s.length t = .next t'
  tracks : Tracks s t'
  moves : t.pos < t'.pos
  le : t'.pos ≤ n

/-- A pass on a prefix that stops: the text goes on from there as from where it started. -/
structure Stays (s : Bytes) (n : Nat) (t t' : TrackPos) : Prop where
  same : trackStep s s.length t' = trackStep s s.length t
  tracks : Tracks s t'
  le : t'.pos ≤ n

/-- A pass on the prefix of length `n`. -/
structure Cut (s : Bytes) (n : Nat) (t : TrackPos) : Prop where
  next : ∀ t', trackStep (s.take n) n t = .next t' → GoesOn s n t t'
  stop : ∀ t' decode, trackStep (s.take n) n t = .stop t' decode → Stays s n t t'

theorem Cut.of_next {s : Bytes} {n : Nat} {t t' : TrackPos}
    (heq : trackStep (s.take n) n t = .next t') (h : GoesOn s n t t') : Cut s n t where
  next := by
    intro t'' hnext
    rw [heq] at hnext
    rwa [← TrackStep.next.inj hnext]
  stop := by
    intro t'' decode hstop
    rw [heq] at hstop
    exact absurd hstop (by simp)

theorem Cut.of_stop {s : Bytes} {n : Nat} {t t' : TrackPos} {decode : DecodeState}
    (heq : trackStep (s.take n) n t = .stop t' decode) (h : Stays s n t t') : Cut s n t where
  next := by
    intro t'' hnext
    rw [heq] at hnext
    exact absurd hnext (by simp)
  stop := by
    intro t'' decode hstop
    rw [heq] at hstop
    rwa [← (TrackStep.stop.inj hstop).1]

section Passes

variable {s : Bytes} {n pos : Nat}

/-- The whole text is a prefix. -/
theorem fullLit_whole_iff {pat : Bytes} (hpat : 0 < pat.length) {p : Nat} :
    rawFullLit s s.length p pat = true ↔ pat <+: s.drop p := by
  have h := fullLit_iff (p := p) hpat (le_refl s.length)
  rw [List.take_length] at h
  rw [h]
  constructor
  · exact fun h => h.1
  · intro hp
    have := hp.length_le
    rw [List.length_drop] at this
    exact ⟨hp, by omega⟩

theorem start_le_hold {syn : DsmlSyntax} (h : syn ∈ dsmlSyntaxes) :
    syn.toolCallsStart.length ≤ dsmlMaxToolStartLen :=
  (syntax_tags syn h).2.2.2.1

/-- The search from a place that no block start precedes is the search from the beginning. -/
theorem findToolStart_from {q : Nat}
    (hpos : ∀ syn ∈ dsmlSyntaxes, ∀ j, syn.toolCallsStart <+: s.drop j → pos ≤ j)
    (hq : ∀ syn ∈ dsmlSyntaxes, ∀ j, syn.toolCallsStart <+: s.drop j → q ≤ j) :
    dsmlFindToolStartFrom s s.length q = dsmlFindToolStartFrom s s.length pos := by
  have htake : s.take s.length = s := List.take_length
  have hfirst : ∀ k syn e, (∀ syn ∈ dsmlSyntaxes, ∀ j, syn.toolCallsStart <+: s.drop j → k ≤ j) →
      dsmlFindToolStartFrom s s.length k = some (syn, e) →
      ∃ p, e = p + syn.toolCallsStart.length ∧ FirstStart s s.length 0 syn p := by
    intro k syn e hk hfind
    obtain ⟨p, rfl, h⟩ := findToolStart_some (le_refl s.length) (by rw [htake]; exact hfind)
    refine ⟨p, rfl, h.known, Nat.zero_le _, h.here, h.fits, fun syn' hsyn' j _ hj hpre => ?_⟩
    exact h.first syn' hsyn' j (hk syn' hsyn' j hpre) hj hpre
  have hagree : ∀ k k' syn e, (∀ syn ∈ dsmlSyntaxes, ∀ j, syn.toolCallsStart <+: s.drop j → k ≤ j) →
      (∀ syn ∈ dsmlSyntaxes, ∀ j, syn.toolCallsStart <+: s.drop j → k' ≤ j) →
      dsmlFindToolStartFrom s s.length k = some (syn, e) →
      dsmlFindToolStartFrom s s.length k' = some (syn, e) := by
    intro k k' syn e hk hk' hfind
    obtain ⟨p, rfl, h⟩ := hfirst k syn e hk hfind
    have heq := findToolStart_eq (le_refl s.length) h (Nat.zero_le k')
      (hk' syn h.known p h.here) h.fits
    rwa [htake] at heq
  cases hfind : dsmlFindToolStartFrom s s.length pos with
  | some b => exact hagree pos q b.1 b.2 hpos hq hfind
  | none =>
    cases hfind' : dsmlFindToolStartFrom s s.length q with
    | none => rfl
    | some b =>
      rw [hagree q pos b.1 b.2 hq hpos hfind'] at hfind
      exact absurd hfind (by simp)

theorem search_cut (hn : n ≤ s.length)
    (h : ∀ syn ∈ dsmlSyntaxes, ∀ j, syn.toolCallsStart <+: s.drop j → pos ≤ j) :
    Cut s n ⟨.search, pos⟩ := by
  have hstep : trackStep (s.take n) n ⟨.search, pos⟩ = trackSearch (s.take n) n pos := rfl
  constructor
  · intro t' hnext
    rw [hstep] at hnext
    unfold trackSearch at hnext
    cases hfind : dsmlFindToolStartFrom (s.take n) n pos with
    | none =>
      rw [hfind] at hnext
      exact absurd hnext (by simp)
    | some b =>
      obtain ⟨syn, q⟩ := b
      rw [hfind] at hnext
      obtain rfl := TrackStep.next.inj hnext
      obtain ⟨p, rfl, hfirst⟩ := findToolStart_some hn hfind
      have hwhole := findToolStart_eq (le_refl s.length) hfirst (le_refl pos) hfirst.le
        (le_trans hfirst.fits hn)
      rw [List.take_length] at hwhole
      refine ⟨?_, .structural (.start ⟨hfirst.known, Nat.zero_le _, hfirst.here,
        le_trans hfirst.fits hn, ?_⟩), ?_, hfirst.fits⟩
      · show trackSearch s s.length pos = _
        unfold trackSearch
        rw [hwhole]
      · intro syn' hsyn' j _ hj hpre
        exact hfirst.first syn' hsyn' j (h syn' hsyn' j hpre) hj hpre
      · have := start_pos hfirst.known
        have := hfirst.le
        show pos < p + syn.toolCallsStart.length
        omega
  · intro t' decode hstop
    rw [hstep] at hstop
    unfold trackSearch at hstop
    cases hfind : dsmlFindToolStartFrom (s.take n) n pos with
    | some b =>
      rw [hfind] at hstop
      exact absurd hstop (by simp)
    | none =>
      rw [hfind] at hstop
      obtain ⟨rfl, -⟩ := TrackStep.stop.inj hstop
      -- a start before the tail that is kept would have arrived
      have hkeep : ∀ syn ∈ dsmlSyntaxes, ∀ j, syn.toolCallsStart <+: s.drop j →
          n - dsmlMaxToolStartLen ≤ j := by
        intro syn hsyn j hpre
        by_contra hlt
        have hle := start_le_hold hsyn
        exact findToolStart_none hn hfind hsyn (h syn hsyn j hpre) (by omega) hpre
      refine ⟨?_, .search hkeep, Nat.sub_le _ _⟩
      show trackSearch s s.length _ = trackSearch s s.length pos
      unfold trackSearch
      rw [findToolStart_from h hkeep]

/-- The prefix does not end one byte into an end tag that closes a value. -/
def Unsplit (s : Bytes) (n : Nat) : Prop := ∀ k, n = k + 1 → ¬ ClosesValue s k

/-- A byte that is stepped over in a prefix is no beginning of an end tag in the text, unless it
    is the last of the prefix. -/
theorem no_endTag {syn : DsmlSyntax} (hsyn : syn ∈ dsmlSyntaxes) (hn : n ≤ s.length)
    (hpos : pos < n) (hfull : ¬ rawFullLit (s.take n) n pos syn.paramEnd = true)
    (hpart : ¬ rawPartialLitMin (s.take n) n pos syn.paramEnd 2 = true) :
    n = pos + 1 ∨ ¬ EndTagAt s syn pos := by
  have hlen := (headed_paramEnd hsyn).length_pos
  by_cases hlast : n = pos + 1
  · exact Or.inl hlast
  right
  rintro (hend | ⟨htwo, hend⟩)
  · rw [fullLit_iff hlen hn] at hfull
    apply hpart
    have hcut : n < pos + syn.paramEnd.length := by
      by_contra hle
      exact hfull ⟨hend, by omega⟩
    have hp := Lib.Headed.partial_of_cut hend hpos hn hcut
    exact (partialMin_iff).mpr ⟨by omega, hcut, hp.2.2⟩
  · apply hpart
    have hlt := hend.2.1
    have hp := Lib.Headed.partial_take hend hpos hn
    exact (partialMin_iff).mpr ⟨by omega, by omega, hp.2.2⟩

theorem paramEnd_pos {syn : DsmlSyntax} (hsyn : syn ∈ dsmlSyntaxes) : 0 < syn.paramEnd.length :=
  (headed_paramEnd hsyn).length_pos

/-- Without an end tag, an update with the text steps over the byte too. -/
theorem whole_no_endTag {syn : DsmlSyntax} (hsyn : syn ∈ dsmlSyntaxes)
    (h : ¬ EndTagAt s syn pos) :
    ¬ rawFullLit s s.length pos syn.paramEnd = true ∧
      ¬ rawPartialLitMin s s.length pos syn.paramEnd 2 = true := by
  constructor
  · intro hfull
    exact h (Or.inl ((fullLit_whole_iff (paramEnd_pos hsyn)).mp hfull))
  · intro hpart
    have htake : s.take s.length = s := List.take_length
    have hp := (partialMin_iff).mp (show rawPartialLitMin (s.take s.length) s.length pos
      syn.paramEnd 2 = true by rw [htake]; exact hpart)
    rw [htake] at hp
    exact h (Or.inr ⟨hp.1, by omega, by omega, hp.2.2⟩)

/-- The byte at `pos`, in a value that is still open, begins no end tag. -/
theorem open_no_endTag {syn : DsmlSyntax} {p v : Nat} (hb : InBlock s syn p) (hn : n ≤ s.length)
    (hpos : pos < n) (hu : Unsplit s n)
    (hopen : (ParamTag s syn p v true ∧ StringOpen s syn v pos) ∨
      (ParamTag s syn p v false ∧ JsonOpen s syn v pos ∧ (jsonFlags s v pos).inString = false))
    (hfull : ¬ rawFullLit (s.take n) n pos syn.paramEnd = true)
    (hpart : ¬ rawPartialLitMin (s.take n) n pos syn.paramEnd 2 = true) :
    ¬ EndTagAt s syn pos := by
  obtain hlast | hno := no_endTag hb.known hn hpos hfull hpart
  · intro hend
    exact hu pos hlast ⟨syn, p, v, hb, hend, hopen⟩
  · exact hno

theorem stringBody_cut {syn : DsmlSyntax} {p v : Nat} (hn : n ≤ s.length) (hu : Unsplit s n)
    (hb : InBlock s syn p) (tag : ParamTag s syn p v true) (hopen : StringOpen s syn v pos)
    (hpos : pos ≤ n) : Cut s n ⟨.stringBody syn, pos⟩ := by
  have hsyn := hb.known
  have hlen := paramEnd_pos hsyn
  have hstep : ∀ raw m, trackStep raw m ⟨.stringBody syn, pos⟩ = trackStringBody raw m pos syn :=
    fun _ _ => rfl
  have hstays : Stays s n ⟨.stringBody syn, pos⟩ ⟨.stringBody syn, pos⟩ :=
    ⟨rfl, .stringBody hb tag hopen, hpos⟩
  by_cases hlt : pos < n
  · have hlt' : pos < s.length := by omega
    by_cases hfull : rawFullLit (s.take n) n pos syn.paramEnd = true
    · -- the end tag has arrived
      obtain ⟨hend, hfit⟩ := (fullLit_iff hlen hn).mp hfull
      have heq : trackStep (s.take n) n ⟨.stringBody syn, pos⟩ =
          .next ⟨.structural syn, pos + syn.paramEnd.length⟩ := by
        rw [hstep, trackStringBody, if_pos hlt, if_pos hfull]
      refine Cut.of_next heq ⟨?_, .structural (.stringValue hb tag hopen hend), ?_, hfit⟩
      · rw [hstep, trackStringBody, if_pos hlt', if_pos ((fullLit_whole_iff hlen).mpr hend)]
      · show pos < pos + syn.paramEnd.length
        omega
    · by_cases hpart : rawPartialLitMin (s.take n) n pos syn.paramEnd 2 = true
      · apply Cut.of_stop _ hstays
        · exact .structural
        · rw [hstep, trackStringBody, if_pos hlt, if_neg hfull, if_pos hpart]
      · -- a byte of the value, in the prefix and in the text
        have heq : trackStep (s.take n) n ⟨.stringBody syn, pos⟩ =
            .next ⟨.stringBody syn, pos + 1⟩ := by
          rw [hstep, trackStringBody, if_pos hlt, if_neg hfull, if_neg hpart]
        have hno := open_no_endTag hb hn hlt hu (Or.inl ⟨tag, hopen⟩) hfull hpart
        obtain ⟨h1, h2⟩ := whole_no_endTag hsyn hno
        have hopen' : StringOpen s syn v (pos + 1) := by
          refine ⟨le_trans hopen.1 (Nat.le_succ pos), fun j hj hjp hpre => ?_⟩
          obtain hlt | rfl := Nat.lt_succ_iff_lt_or_eq.mp hjp
          · exact hopen.2 j hj hlt hpre
          · exact hno (Or.inl hpre)
        refine Cut.of_next heq ⟨?_, .stringBody hb tag hopen', Nat.lt_succ_self _, hlt⟩
        rw [hstep, trackStringBody, if_pos hlt', if_neg h1, if_neg h2]
  · apply Cut.of_stop _ hstays
    · exact .stringBody
    · rw [hstep, trackStringBody, if_neg hlt]

theorem jsonParam_cut {syn : DsmlSyntax} {p v : Nat} (hn : n ≤ s.length) (hu : Unsplit s n)
    (hb : InBlock s syn p) (tag : ParamTag s syn p v false) (hopen : JsonOpen s syn v pos)
    (hpos : pos ≤ n) : Cut s n ⟨.jsonParam syn (jsonFlags s v pos), pos⟩ := by
  have hsyn := hb.known
  have hlen := paramEnd_pos hsyn
  have hstep : ∀ raw m, trackStep raw m ⟨.jsonParam syn (jsonFlags s v pos), pos⟩ =
      trackJsonParam raw m pos syn (jsonFlags s v pos) := fun _ _ => rfl
  have hstays : Stays s n ⟨.jsonParam syn (jsonFlags s v pos), pos⟩
      ⟨.jsonParam syn (jsonFlags s v pos), pos⟩ := ⟨rfl, .jsonParam hb tag hopen, hpos⟩
  by_cases hlt : pos < n
  · have hlt' : pos < s.length := by omega
    by_cases hfull : (!(jsonFlags s v pos).inString &&
        rawFullLit (s.take n) n pos syn.paramEnd) = true
    · -- the end tag has arrived
      obtain ⟨hout, hfull'⟩ := Bool.and_eq_true_iff.mp hfull
      obtain ⟨hend, hfit⟩ := (fullLit_iff hlen hn).mp hfull'
      have heq : trackStep (s.take n) n ⟨.jsonParam syn (jsonFlags s v pos), pos⟩ =
          .next ⟨.structural syn, pos + syn.paramEnd.length⟩ := by
        rw [hstep, trackJsonParam, if_pos hlt, if_pos hfull]
      refine Cut.of_next heq
        ⟨?_, .structural (.jsonValue hb tag hopen (by simpa using hout) hend), ?_, hfit⟩
      · have hwhole : (!(jsonFlags s v pos).inString &&
            rawFullLit s s.length pos syn.paramEnd) = true :=
          Bool.and_eq_true_iff.mpr ⟨hout, (fullLit_whole_iff hlen).mpr hend⟩
        rw [hstep, trackJsonParam, if_pos hlt', if_pos hwhole]
      · show pos < pos + syn.paramEnd.length
        omega
    · by_cases hpart : (!(jsonFlags s v pos).inString &&
          rawPartialLitMin (s.take n) n pos syn.paramEnd 2) = true
      · apply Cut.of_stop _ hstays
        · exact .structural
        · rw [hstep, trackJsonParam, if_pos hlt, if_neg hfull, if_pos hpart]
      · -- a byte of the value, in the prefix and in the text
        have hget : (s.take n).getD pos 0 = s.getD pos 0 := by
          rw [List.getD_eq_getElem?_getD, List.getD_eq_getElem?_getD, Lib.getElem?_take_lt hlt]
        have heq : trackStep (s.take n) n ⟨.jsonParam syn (jsonFlags s v pos), pos⟩ =
            .next ⟨.jsonParam syn (jsonFlags s v (pos + 1)), pos + 1⟩ := by
          rw [hstep, trackJsonParam, if_pos hlt, if_neg hfull, if_neg hpart, hget,
            jsonFlags_succ hopen.1 hlt']
        have hno : (jsonFlags s v pos).inString = false → ¬ EndTagAt s syn pos := by
          intro hout
          rw [hout, Bool.not_false, Bool.true_and] at hfull hpart
          exact open_no_endTag hb hn hlt hu (Or.inr ⟨tag, hopen, hout⟩) hfull hpart
        have hopen' : JsonOpen s syn v (pos + 1) := by
          refine ⟨le_trans hopen.1 (Nat.le_succ pos), fun j hj hjp hpre => ?_⟩
          obtain hlt | rfl := Nat.lt_succ_iff_lt_or_eq.mp hjp
          · exact hopen.2 j hj hlt hpre
          · by_contra hout
            rw [Bool.not_eq_true] at hout
            exact hno hout (Or.inl hpre)
        refine Cut.of_next heq ⟨?_, .jsonParam hb tag hopen', Nat.lt_succ_self _, hlt⟩
        rw [hstep, trackJsonParam, if_pos hlt', jsonFlags_succ hopen.1 hlt']
        cases hout : (jsonFlags s v pos).inString with
        | true => rfl
        | false =>
          obtain ⟨h1, h2⟩ := whole_no_endTag hsyn (hno hout)
          rw [Bool.not_false, Bool.true_and, Bool.true_and, if_neg h1, if_neg h2]
  · apply Cut.of_stop _ hstays
    · exact if (jsonFlags s v pos).inString then .jsonString else .jsonStructural
    · rw [hstep, trackJsonParam, if_neg hlt]

/-- Behind the white space that has arrived, a tag in the prefix is the tag in the text. -/
theorem tag_cut {syn : DsmlSyntax} {t : TrackPos} (hn : n ≤ s.length) (hb : InBlock s syn pos)
    (hpos : pos ≤ n) (hle : t.pos ≤ pos)
    (hcut : trackStep (s.take n) n t = trackTag (s.take n) n pos syn)
    (hwhole : pos < n → trackStep s s.length t = trackTag s s.length pos syn)
    (hstays : Stays s n t ⟨.structural syn, pos⟩) : Cut s n t := by
  have hsyn := hb.known
  have htags : ∀ a ∈ syn.tags, rawFullLit (s.take n) n pos a = true →
      pos < n ∧ a <+: s.drop pos ∧ pos + a.length ≤ n ∧ rawFullLit s s.length pos a = true := by
    intro a ha hfull
    have hapos := tag_pos hsyn ha
    obtain ⟨hpre, hfit⟩ := (fullLit_iff hapos hn).mp hfull
    exact ⟨by omega, hpre, hfit, (fullLit_whole_iff hapos).mpr hpre⟩
  have hlen : (s.take s.length) = s := List.take_length
  by_cases h1 : rawFullLit (s.take n) n pos syn.toolCallsEnd = true
  · obtain ⟨hlt, -, hfit, hfull⟩ := htags _ (by simp [DsmlSyntax.tags]) h1
    have hs := trackTag_toolCallsEnd (p := pos) hsyn (le_refl s.length) (by rw [hlen]; exact hfull)
    rw [hlen] at hs
    apply Cut.of_stop (hcut.trans (trackTag_toolCallsEnd hsyn hn h1))
    refine ⟨?_, .done, hfit⟩
    rw [hwhole hlt, hs]
    rfl
  by_cases h2 : rawFullLit (s.take n) n pos syn.invokeEnd = true
  · obtain ⟨hlt, hpre, hfit, hfull⟩ := htags _ (by simp [DsmlSyntax.tags]) h2
    have hs := trackTag_invokeEnd (p := pos) hsyn (le_refl s.length) (by rw [hlen]; exact hfull)
    rw [hlen] at hs
    apply Cut.of_next (hcut.trans (trackTag_invokeEnd hsyn hn h2))
    refine ⟨by rw [hwhole hlt, hs], .structural (.invokeEnd hb hpre), ?_, hfit⟩
    have := tag_pos hsyn (a := syn.invokeEnd) (by simp [DsmlSyntax.tags])
    show t.pos < pos + syn.invokeEnd.length
    omega
  by_cases h3 : rawFullLit (s.take n) n pos syn.invokeStart = true
  · obtain ⟨hlt, hpre, hfit, hfull⟩ := htags _ (by simp [DsmlSyntax.tags]) h3
    have hs := trackTag_invokeStart (p := pos) hsyn (le_refl s.length) (by rw [hlen]; exact hfull)
    rw [hlen] at hs
    have hp := hcut.trans (trackTag_invokeStart hsyn hn h3)
    cases hend : tagEndFrom (s.take n) n pos with
    | none =>
      apply Cut.of_stop _ hstays
      · exact .structural
      · rw [hp, trackInvokeTag, hend]
    | some e =>
      obtain ⟨hend', hpe, hen⟩ := findLitBounded_cut (by decide) hn hend
      have heq : trackStep (s.take n) n t = .next ⟨.structural syn, e + 1⟩ := by
        rw [hp, trackInvokeTag, hend]
      refine Cut.of_next heq ⟨?_, .structural (.invokeStart hb hpre hend'), ?_, hen⟩
      · have htag : tagEndFrom s s.length pos = some e := hend'
        rw [hwhole hlt, hs, trackInvokeTag, htag]
      · show t.pos < e + 1
        omega
  by_cases h4 : rawFullLit (s.take n) n pos syn.paramStart = true
  · obtain ⟨hlt, hpre, hfit, hfull⟩ := htags _ (by simp [DsmlSyntax.tags]) h4
    have hs := trackTag_paramStart (p := pos) hsyn (le_refl s.length) (by rw [hlen]; exact hfull)
    rw [hlen] at hs
    have hp := hcut.trans (trackTag_paramStart hsyn hn h4)
    cases hend : tagEndFrom (s.take n) n pos with
    | none =>
      apply Cut.of_stop _ hstays
      · exact .structural
      · rw [hp, trackParamTag, hend]
    | some e =>
      obtain ⟨hend', hpe, hen⟩ := findLitBounded_cut (by decide) hn hend
      have htag : tagEndFrom s s.length pos = some e := hend'
      have hen : e + 1 ≤ n := hen
      have hattr : dsmlAttrIsStringTrue (s.take n) pos (e + 1) =
          dsmlAttrIsStringTrue s pos (e + 1) := by
        unfold dsmlAttrIsStringTrue
        rw [slice_take hen]
      cases hstr : dsmlAttrIsStringTrue s pos (e + 1) with
      | true =>
        have hparam : ParamTag s syn pos (e + 1) true := ⟨hpre, ⟨e, htag, rfl⟩, hstr⟩
        have heq : trackStep (s.take n) n t = .next ⟨.stringBody syn, e + 1⟩ := by
          rw [hp, trackParamTag, hend]
          dsimp only
          rw [hattr, hstr, if_pos rfl]
        refine Cut.of_next heq ⟨?_, .stringBody hb hparam ⟨le_refl _, by omega⟩, ?_, hen⟩
        · rw [hwhole hlt, hs, trackParamTag, htag]
          dsimp only
          rw [hstr, if_pos rfl]
        · show t.pos < e + 1
          omega
      | false =>
        have hparam : ParamTag s syn pos (e + 1) false := ⟨hpre, ⟨e, htag, rfl⟩, hstr⟩
        have htracks : Tracks s ⟨.jsonParam syn (jsonFlags s (e + 1) (e + 1)), e + 1⟩ :=
          .jsonParam hb hparam ⟨le_refl _, by omega⟩
        rw [jsonFlags_self] at htracks
        have heq : trackStep (s.take n) n t = .next ⟨.jsonParam syn .start, e + 1⟩ := by
          rw [hp, trackParamTag, hend]
          dsimp only
          rw [hattr, hstr, if_neg (by simp)]
        refine Cut.of_next heq ⟨?_, htracks, ?_, hen⟩
        · rw [hwhole hlt, hs, trackParamTag, htag]
          dsimp only
          rw [hstr, if_neg (by simp)]
        · show t.pos < e + 1
          omega
  · -- no tag, or not yet
    apply Cut.of_stop _ hstays
    · exact .structural
    · rw [hcut]
      refine trackTag_none fun a ha => ?_
      simp only [DsmlSyntax.tags, List.mem_cons, List.not_mem_nil, or_false] at ha
      obtain rfl | rfl | rfl | rfl := ha
      · exact h1
      · exact h2
      · exact h3
      · exact h4

theorem structural_cut {syn : DsmlSyntax} (hn : n ≤ s.length) (hb : InBlock s syn pos)
    (hpos : pos ≤ n) : Cut s n ⟨.structural syn, pos⟩ := by
  have hlen : (s.take n).length = n := by
    rw [List.length_take]
    omega
  obtain ⟨hlb, hub⟩ := skipSpace_bounds (le_of_eq hlen.symm) hpos
  obtain ⟨hagree, hresume⟩ := skipSpace_cut hn hpos
  have hspaces : InBlock s syn (skipSpace (s.take n) n pos) := by
    apply hb.spaces hlb (le_trans hub hn)
    intro j hj hjq c hc
    refine ((skipSpace_eq_iff (le_of_eq hlen.symm) hlb hub).mp rfl).1 j hj hjq c ?_
    rw [Lib.getElem?_take_lt (by omega)]
    exact hc
  refine tag_cut hn hspaces hub hlb rfl ?_ ⟨?_, .structural hspaces, hub⟩
  · intro hlt
    show trackTag s s.length (skipSpace s s.length pos) syn = _
    rw [hagree hlt]
  · show trackTag s s.length (skipSpace s s.length _) syn =
      trackTag s s.length (skipSpace s s.length pos) syn
    rw [hresume]

/-- **One pass at a cut.** -/
theorem trackStep_cut {t : TrackPos} (hn : n ≤ s.length) (hu : Unsplit s n) (ht : Tracks s t)
    (hpos : t.pos ≤ n) : Cut s n t := by
  cases ht with
  | search h => exact search_cut hn h
  | structural h => exact structural_cut hn h hpos
  | stringBody h tag hopen => exact stringBody_cut hn hu h tag hopen hpos
  | jsonParam h tag hopen => exact jsonParam_cut hn hu h tag hopen hpos
  | done => exact Cut.of_stop rfl ⟨rfl, .done, hpos⟩

end Passes

/-! ### Whole updates -/

section Runs

variable {s : Bytes} {n : Nat}

theorem paramEnd_long {syn : DsmlSyntax} (h : syn ∈ dsmlSyntaxes) : 1 < syn.paramEnd.length :=
  (syntax_tags syn h).2.2.2.2

/-- The last byte of a text is no end tag, and no two bytes of one. -/
theorem unsplit_whole (s : Bytes) : Unsplit s s.length := by
  rintro k hk ⟨syn, p, v, hb, hend | hend, -⟩
  · have hlen := hend.length_le
    have hlong := paramEnd_long hb.known
    rw [List.length_drop] at hlen
    omega
  · have := hend.1
    omega

theorem trackStep_whole {t : TrackPos} (ht : Tracks s t) (hpos : t.pos ≤ s.length)
    {t' : TrackPos} (h : trackStep s s.length t = .next t') : GoesOn s s.length t t' := by
  apply (trackStep_cut (le_refl _) (unsplit_whole s) ht hpos).next
  rw [List.take_length]
  exact h

/-- As many passes as bytes are left, and one, are enough. -/
theorem trackLoop_fuel {t : TrackPos} (ht : Tracks s t) (hpos : t.pos ≤ s.length)
    {fuel fuel' : Nat} (h : s.length - t.pos < fuel) (h' : s.length - t.pos < fuel') :
    trackLoop s s.length fuel t = trackLoop s s.length fuel' t := by
  induction fuel generalizing fuel' t with
  | zero => exact absurd h (Nat.not_lt_zero _)
  | succ fuel ih =>
    obtain ⟨fuel', rfl⟩ : ∃ k, fuel' = k + 1 := ⟨fuel' - 1, by omega⟩
    unfold trackLoop
    cases hstep : trackStep s s.length t with
    | stop t' decode => rfl
    | next t' =>
      have hgo := trackStep_whole ht hpos hstep
      have := hgo.moves
      have := hgo.le
      exact ih hgo.tracks hgo.le (by omega) (by omega)

/-- An update with the whole text. -/
def trackRun (s : Bytes) (t : TrackPos) : DecodeTracker := trackLoop s s.length (s.length + 1) t

theorem trackRun_next {t t' : TrackPos} (ht : Tracks s t) (hpos : t.pos ≤ s.length)
    (h : trackStep s s.length t = .next t') : trackRun s t = trackRun s t' := by
  have hgo := trackStep_whole ht hpos h
  have hmoves := hgo.moves
  have hle := hgo.le
  unfold trackRun
  rw [trackLoop, h]
  exact trackLoop_fuel hgo.tracks hle (by omega) (by omega)

theorem trackRun_stop {t t' : TrackPos} {decode : DecodeState}
    (h : trackStep s s.length t = .stop t' decode) : trackRun s t = ⟨t', decode⟩ := by
  unfold trackRun
  rw [trackLoop, h]

theorem trackRun_congr {t t' : TrackPos}
    (h : trackStep s s.length t' = trackStep s s.length t) : trackRun s t' = trackRun s t := by
  unfold trackRun
  rw [trackLoop, trackLoop, h]

/-- The loop on a prefix stops where the text goes on. -/
theorem trackLoop_cut {t : TrackPos} (hn : n ≤ s.length) (hu : Unsplit s n) (ht : Tracks s t)
    (hpos : t.pos ≤ n) {fuel : Nat} (hfuel : n - t.pos < fuel) :
    Tracks s (trackLoop (s.take n) n fuel t).toTrackPos ∧
      (trackLoop (s.take n) n fuel t).pos ≤ n ∧
      trackRun s (trackLoop (s.take n) n fuel t).toTrackPos = trackRun s t := by
  induction fuel generalizing t with
  | zero => exact absurd hfuel (Nat.not_lt_zero _)
  | succ fuel ih =>
    obtain ⟨hnext, hstop⟩ := trackStep_cut hn hu ht hpos
    unfold trackLoop
    cases hstep : trackStep (s.take n) n t with
    | stop t' decode =>
      obtain ⟨hsame, htracks, hle⟩ := hstop t' decode hstep
      exact ⟨htracks, hle, trackRun_congr hsame⟩
    | next t' =>
      obtain ⟨hsame, htracks, hmoves, hle⟩ := hnext t' hstep
      rw [trackRun_next ht (le_trans hpos hn) hsame]
      exact ih htracks hle (by omega)

/-- **Two updates.** -/
theorem tracker_cut {dt : DecodeTracker} (hn : n ≤ s.length) (hu : Unsplit s n)
    (ht : Tracks s dt.toTrackPos) (hpos : dt.pos ≤ n) :
    Tracks s (dsmlDecodeTrackerUpdate (s.take n) n dt).toTrackPos ∧
      (dsmlDecodeTrackerUpdate (s.take n) n dt).pos ≤ n ∧
      dsmlDecodeTrackerUpdate s s.length (dsmlDecodeTrackerUpdate (s.take n) n dt) =
        dsmlDecodeTrackerUpdate s s.length dt :=
  trackLoop_cut hn hu ht hpos (by omega)

/-- The tracker after a list of prefixes, given by their lengths. -/
def trackPrefixes (s : Bytes) (lens : List Nat) (dt : DecodeTracker) : DecodeTracker :=
  lens.foldl (fun dt n => dsmlDecodeTrackerUpdate (s.take n) n dt) dt

/-- **Runs.** Prefixes that split no end tag of a value leave the tracker where the text goes
    on. -/
theorem trackPrefixes_run {lens : List Nat} {dt : DecodeTracker}
    (hsorted : lens.Pairwise (· ≤ ·)) (hle : ∀ n ∈ lens, dt.pos ≤ n ∧ n ≤ s.length)
    (hu : ∀ n ∈ lens, Unsplit s n) (ht : Tracks s dt.toTrackPos) :
    dsmlDecodeTrackerUpdate s s.length (trackPrefixes s lens dt) =
      dsmlDecodeTrackerUpdate s s.length dt := by
  induction lens generalizing dt with
  | nil => rfl
  | cons n lens ih =>
    obtain ⟨hpos, hn⟩ := hle n List.mem_cons_self
    obtain ⟨hfirst, hsorted⟩ := List.pairwise_cons.mp hsorted
    obtain ⟨htracks, hle', hsame⟩ := tracker_cut hn (hu n List.mem_cons_self) ht hpos
    unfold trackPrefixes
    rw [List.foldl_cons, ← hsame]
    apply ih hsorted _ (fun m hm => hu m (List.mem_cons_of_mem n hm)) htracks
    intro m hm
    exact ⟨le_trans hle' (hfirst m hm), (hle m (List.mem_cons_of_mem n hm)).2⟩

theorem tracks_init (s : Bytes) : Tracks s DecodeTracker.init.toTrackPos :=
  .search fun _ _ j _ => Nat.zero_le j

end Runs

end DS4.Server
