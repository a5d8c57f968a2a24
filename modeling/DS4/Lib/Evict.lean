import Mathlib.Algebra.GroupWithZero.Nat
import Mathlib.Algebra.Order.BigOperators.Group.List
import Mathlib.Data.List.AList

namespace DS4.Lib

/-!
# Removing the least until the rest fits

Items have a size and a rank.  While the sizes add up to more than a budget, the first item of
least rank is removed.

* `victim` — the place of the item that goes next; `victim_spec`.
* `removed` — what goes, in order; `removed_spec` says that the rest fits, `not_mem_removed` that
  an item which outranks the others and fits alone is not removed.
* `Turn`, `turns` — the same turn by turn, where an item that goes may not go away; `turns_spec` says
  that each turn took the best item while it was needed, and what the running total was.
* `weigh` — the sum of the sizes of the values of a finite map, after insertion and removal.
-/

variable {α : Type*}

/-! ### Choosing -/

/-- The place of the best item, when `b` at `v` is the best before place `i`. -/
def victimFrom (better : α → α → Bool) : List α → Nat → Nat → α → Nat
  | [], _, v, _      => v
  | e :: es, i, v, b =>
    if better e b then victimFrom better es (i + 1) i e else victimFrom better es (i + 1) v b

/-- The place of the first best item. -/
def victim (better : α → α → Bool) : List α → Nat
  | []      => 0
  | e :: es => victimFrom better es 1 0 e

/-- `better` compares the ranks first. -/
structure RankedBy (better : α → α → Bool) (rank : α → Nat) : Prop where
  le_of_better : ∀ x b, better x b = true → rank x ≤ rank b
  le_of_not : ∀ x b, better x b = false → rank b ≤ rank x

variable {better : α → α → Bool} {rank : α → Nat}

theorem victimFrom_spec (h : RankedBy better rank) {es : List α} {i v : Nat} {b : α} {all : List α}
    (hes : all.drop i = es) (hv : all[v]? = some b) :
    ∃ c, all[victimFrom better es i v b]? = some c ∧ rank c ≤ rank b ∧ ∀ x ∈ es, rank c ≤ rank x := by
  induction es generalizing i v b with
  | nil => exact ⟨b, hv, Nat.le_refl _, fun x hx => absurd hx List.not_mem_nil⟩
  | cons e es ih =>
    have hdrop : all.drop (i + 1) = es := by
      rw [← List.tail_drop, hes]
      rfl
    have hi : all[i]? = some e := by
      rw [← List.head?_drop, hes]
      rfl
    unfold victimFrom
    by_cases hb : better e b = true
    · rw [if_pos hb]
      obtain ⟨c, hc, hle, hall⟩ := ih hdrop hi
      have hbe := h.le_of_better e b hb
      exact ⟨c, hc, by omega, List.forall_mem_cons.mpr ⟨hle, hall⟩⟩
    · rw [if_neg hb]
      obtain ⟨c, hc, hle, hall⟩ := ih hdrop hv
      have hbe := h.le_of_not e b (by simpa using hb)
      exact ⟨c, hc, hle, List.forall_mem_cons.mpr ⟨by omega, hall⟩⟩

/-- **The victim** has the least rank. -/
theorem victim_spec (h : RankedBy better rank) {es : List α} (hne : es ≠ []) :
    ∃ c, es[victim better es]? = some c ∧ ∀ x ∈ es, rank c ≤ rank x := by
  cases es with
  | nil => exact absurd rfl hne
  | cons e es =>
    obtain ⟨c, hc, hle, hall⟩ := @victimFrom_spec α better rank h es 1 0 e (e :: es) rfl rfl
    exact ⟨c, hc, List.forall_mem_cons.mpr ⟨hle, hall⟩⟩

/-! ### Removing -/

/-- What is removed of items whose sizes add up to `total`; each turn removes one of them. -/
def removed (size : α → Nat) (better : α → α → Bool) (budget : Nat) : Nat → Nat → List α → List α
  | 0, _, _             => []
  | fuel + 1, total, es =>
    if budget < total ∧ 0 < es.length then
      match es[victim better es]? with
      | none   => []
      | some e =>
        e :: removed size better budget fuel (if size e ≤ total then total - size e else 0)
          (es.eraseIdx (victim better es))
    else []

variable {size : α → Nat}

theorem perm_eraseIdx {es : List α} {i : Nat} {e : α} (h : es[i]? = some e) :
    es.Perm (e :: es.eraseIdx i) := by
  obtain ⟨hi, rfl⟩ := List.getElem?_eq_some_iff.mp h
  exact (List.getElem_cons_eraseIdx_perm hi).symm

theorem sum_eraseIdx (size : α → Nat) {es : List α} {i : Nat} {e : α} (h : es[i]? = some e) :
    (es.map size).sum = size e + ((es.eraseIdx i).map size).sum := by
  rw [((perm_eraseIdx h).map size).sum_eq, List.map_cons, List.sum_cons]

/-- **What stays** fits. -/
theorem removed_spec (h : RankedBy better rank) (budget : Nat) {fuel total : Nat} {es : List α}
    (hfuel : es.length ≤ fuel) (htotal : total = (es.map size).sum) :
    ∃ kept, es.Perm (removed size better budget fuel total es ++ kept) ∧
      (kept.map size).sum ≤ budget := by
  induction fuel generalizing total es with
  | zero =>
    obtain rfl := List.length_eq_zero_iff.mp (Nat.le_zero.mp hfuel)
    exact ⟨[], List.Perm.refl _, Nat.zero_le _⟩
  | succ fuel ih =>
    unfold removed
    by_cases hmore : budget < total ∧ 0 < es.length
    · rw [if_pos hmore]
      obtain ⟨e, he, -⟩ := victim_spec h (List.length_pos_iff.mp hmore.2)
      have hsum := sum_eraseIdx size he
      have hlen := (perm_eraseIdx he).length_eq
      rw [List.length_cons] at hlen
      rw [he]
      dsimp only
      rw [if_pos (by omega)]
      obtain ⟨kept, hperm, hfits⟩ := @ih (total - size e) (es.eraseIdx (victim better es))
        (by omega) (by omega)
      exact ⟨kept, (perm_eraseIdx he).trans (hperm.cons e), hfits⟩
    · rw [if_neg hmore]
      refine ⟨es, List.Perm.refl _, ?_⟩
      by_cases hbudget : budget < total
      · obtain rfl := List.length_eq_zero_iff.mp (Nat.eq_zero_of_not_pos fun h0 => hmore ⟨hbudget, h0⟩)
        exact Nat.zero_le _
      · omega

/-- **The highest rank** is not removed, when that item fits alone. -/
theorem not_mem_removed (h : RankedBy better rank) {budget : Nat} (fuel : Nat) {total : Nat} {es : List α} {p : α}
    (hnodup : es.Nodup) (htop : ∀ x ∈ es, x ≠ p → rank x < rank p) (hsize : size p ≤ budget)
    (htotal : total = (es.map size).sum) : p ∉ removed size better budget fuel total es := by
  induction fuel generalizing total es with
  | zero => exact List.not_mem_nil
  | succ fuel ih =>
    unfold removed
    by_cases hmore : budget < total ∧ 0 < es.length
    · rw [if_pos hmore]
      obtain ⟨e, he, hmin⟩ := victim_spec h (List.length_pos_iff.mp hmore.2)
      have hsum := sum_eraseIdx size he
      have hperm := perm_eraseIdx he
      have hmem : ∀ x ∈ es.eraseIdx (victim better es), x ∈ es := fun x hx =>
        hperm.mem_iff.mpr (List.mem_cons_of_mem e hx)
      rw [he]
      dsimp only
      rw [if_pos (by omega)]
      have hep : e ≠ p := by
        rintro rfl
        -- all the others outrank the victim, so it is alone
        have halone : es.eraseIdx (victim better es) = [] := by
          refine List.eq_nil_iff_forall_not_mem.mpr fun x hx => ?_
          have hxe : x ≠ e := fun hxe =>
            (List.nodup_cons.mp (hperm.nodup_iff.mp hnodup)).1 (hxe ▸ hx)
          have h1 := htop x (hmem x hx) hxe
          have h2 := hmin x (hmem x hx)
          omega
        rw [halone, List.map_nil, List.sum_nil] at hsum
        omega
      have hrest := @ih (total - size e) (es.eraseIdx (victim better es))
        (hnodup.sublist (List.eraseIdx_sublist ..)) (fun x hx => htop x (hmem x hx)) (by omega)
      intro hp
      obtain rfl | hp := List.mem_cons.mp hp
      · exact hep rfl
      · exact hrest hp
    · rw [if_neg hmore]
      exact List.not_mem_nil

/-! ### Turn by turn -/

/-- A turn: the items and the running total before it, what it took, whether that went away, and the
    items and the total behind it. -/
structure Turn (α : Type*) where
  items : List α
  total : Nat
  victim : α
  gone : Bool
  rest : List α
  left : Nat

/-- The turns, and the items behind the last one. A victim is no more among the items even if it did not go
    away; the total is then set to zero, which ends the loop. -/
def turns (size : α → Nat) (better : α → α → Bool) (gone : α → Bool) (budget : Nat) :
    Nat → Nat → List α → List (Turn α) × List α
  | 0, _, es             => ([], es)
  | fuel + 1, total, es =>
    if budget < total ∧ 0 < es.length then
      match es[victim better es]? with
      | none   => ([], es)
      | some e =>
        let rest := es.eraseIdx (victim better es)
        let left := if gone e then (if size e ≤ total then total - size e else 0) else 0
        let more := turns size better gone budget fuel left rest
        (⟨es, total, e, gone e, rest, left⟩ :: more.1, more.2)
    else ([], es)

/-- `better` is the strict part of a total preorder. -/
structure StrictOrder (better : α → α → Bool) : Prop where
  asymm : ∀ a b, better a b = true → better b a = false
  trans : ∀ a b c, better a b = false → better b c = false → better a c = false

theorem victimFrom_best (h : StrictOrder better) {es : List α} {i v : Nat} {b : α} {all : List α}
    (hes : all.drop i = es) (hv : all[v]? = some b) :
    ∃ c, all[victimFrom better es i v b]? = some c ∧ better b c = false ∧ ∀ x ∈ es, better x c = false := by
  have hrefl : ∀ a, better a a = false := by
    intro a
    cases ha : better a a with
    | false => rfl
    | true => exact (ha.symm).trans (h.asymm a a ha)
  induction es generalizing i v b with
  | nil => exact ⟨b, hv, hrefl b, fun x hx => absurd hx List.not_mem_nil⟩
  | cons e es ih =>
    have hdrop : all.drop (i + 1) = es := by
      rw [← List.tail_drop, hes]
      rfl
    have hi : all[i]? = some e := by
      rw [← List.head?_drop, hes]
      rfl
    unfold victimFrom
    by_cases hb : better e b = true
    · rw [if_pos hb]
      obtain ⟨c, hc, hle, hall⟩ := ih hdrop hi
      exact ⟨c, hc, h.trans b e c (h.asymm e b hb) hle, List.forall_mem_cons.mpr ⟨hle, hall⟩⟩
    · rw [if_neg hb]
      obtain ⟨c, hc, hle, hall⟩ := ih hdrop hv
      exact ⟨c, hc, hle, List.forall_mem_cons.mpr ⟨h.trans e b c (by simpa using hb) hle, hall⟩⟩

/-- **The victim** is best: no item is better. -/
theorem victim_best (h : StrictOrder better) {es : List α} (hne : es ≠ []) :
    ∃ c, es[victim better es]? = some c ∧ ∀ x ∈ es, better x c = false := by
  cases es with
  | nil => exact absurd rfl hne
  | cons e es =>
    obtain ⟨c, hc, hle, hall⟩ := @victimFrom_best α better h es 1 0 e (e :: es) rfl rfl
    exact ⟨c, hc, List.forall_mem_cons.mpr ⟨hle, hall⟩⟩

/-- What a turn does to items whose sizes add up to its total. -/
structure Turn.Sound (size : α → Nat) (better : α → α → Bool) (gone : α → Bool) (budget : Nat) (t : Turn α) :
    Prop where
  total : t.total = (t.items.map size).sum
  needed : budget < t.total
  perm : t.items.Perm (t.victim :: t.rest)
  best : ∀ x ∈ t.items, better x t.victim = false
  gone : t.gone = gone t.victim
  left_gone : t.gone = true → t.left = (t.rest.map size).sum
  left_kept : t.gone = false → t.left = 0

variable {gone : α → Bool}

/-- **The turns** of a run on items whose sizes add up to the total: each is sound and works on some of the
    items, the items are those taken and those left, only the last victim can have stayed, and if none
    did then what is left fits. -/
theorem turns_spec (h : StrictOrder better) (budget : Nat) {fuel total : Nat} {es : List α}
    (hfuel : es.length ≤ fuel) (htotal : total = (es.map size).sum) :
    (∀ t ∈ (turns size better gone budget fuel total es).1,
        t.Sound size better gone budget ∧ t.items.Sublist es) ∧
      es.Perm ((turns size better gone budget fuel total es).1.map Turn.victim ++
        (turns size better gone budget fuel total es).2) ∧
      (turns size better gone budget fuel total es).1.Pairwise (fun t _ => t.gone = true) ∧
      ((∀ t ∈ (turns size better gone budget fuel total es).1, t.gone = true) →
        ((turns size better gone budget fuel total es).2.map size).sum ≤ budget) := by
  induction fuel generalizing total es with
  | zero =>
    obtain rfl := List.length_eq_zero_iff.mp (Nat.le_zero.mp hfuel)
    exact ⟨fun t ht => absurd ht List.not_mem_nil, List.Perm.refl _, List.Pairwise.nil, fun _ => Nat.zero_le _⟩
  | succ fuel ih =>
    unfold turns
    by_cases hmore : budget < total ∧ 0 < es.length
    · rw [if_pos hmore]
      obtain ⟨e, he, hbest⟩ := victim_best h (List.length_pos_iff.mp hmore.2)
      have hsum := sum_eraseIdx size he
      have hperm := perm_eraseIdx he
      have hlen := hperm.length_eq
      have hsub : (es.eraseIdx (victim better es)).Sublist es := List.eraseIdx_sublist ..
      rw [List.length_cons] at hlen
      rw [he]
      dsimp only
      have hsize : size e ≤ total := by omega
      rw [if_pos hsize]
      by_cases hgone : gone e = true
      · -- the loop goes on with the rest
        rw [if_pos hgone]
        obtain ⟨hsound, hrest, hpair, hfits⟩ := @ih (total - size e) (es.eraseIdx (victim better es))
          (by omega) (by omega)
        refine ⟨List.forall_mem_cons.mpr ⟨⟨⟨htotal, hmore.1, hperm, hbest, rfl, fun _ => ?_, fun hk => ?_⟩,
          List.Sublist.refl _⟩, fun t ht => ⟨(hsound t ht).1, (hsound t ht).2.trans hsub⟩⟩,
          hperm.trans (hrest.cons e), List.Pairwise.cons (fun _ _ => hgone) hpair, fun hall => ?_⟩
        · show total - size e = ((es.eraseIdx (victim better es)).map size).sum
          omega
        · exact absurd (hgone.symm.trans hk) Bool.noConfusion
        · exact hfits fun t ht => hall t (List.mem_cons_of_mem _ ht)
      · -- the total is zero, so this is the last turn
        have hfalse : gone e = false := (Bool.not_eq_true _).mp hgone
        have hend : turns size better gone budget fuel 0 (es.eraseIdx (victim better es)) =
            ([], es.eraseIdx (victim better es)) := by
          cases fuel with
          | zero => rfl
          | succ fuel =>
            unfold turns
            rw [if_neg fun hlt => absurd hlt.1 (Nat.not_lt_zero budget)]
        rw [if_neg hgone, hend]
        refine ⟨List.forall_mem_cons.mpr ⟨⟨⟨htotal, hmore.1, hperm, hbest, rfl, fun hk => ?_, fun _ => rfl⟩,
          List.Sublist.refl _⟩, fun t ht => absurd ht List.not_mem_nil⟩, hperm,
          List.Pairwise.cons (fun t ht => absurd ht List.not_mem_nil) List.Pairwise.nil, fun hall => ?_⟩
        · exact absurd (hfalse.symm.trans hk) Bool.noConfusion
        · exact absurd (hfalse.symm.trans (hall _ List.mem_cons_self)) Bool.noConfusion
    · rw [if_neg hmore]
      refine ⟨fun t ht => absurd ht List.not_mem_nil, List.Perm.refl _, List.Pairwise.nil, fun _ => ?_⟩
      by_cases hbudget : budget < total
      · obtain rfl := List.length_eq_zero_iff.mp (Nat.eq_zero_of_not_pos fun h0 => hmore ⟨hbudget, h0⟩)
        exact Nat.zero_le _
      · show (es.map size).sum ≤ budget
        omega

theorem gone_of_mem_turns {fuel total budget : Nat} {es : List α} {t : Turn α}
    (ht : t ∈ (turns size better gone budget fuel total es).1) : t.gone = gone t.victim := by
  induction fuel generalizing total es with
  | zero => exact absurd ht List.not_mem_nil
  | succ fuel ih =>
    unfold turns at ht
    by_cases hmore : budget < total ∧ 0 < es.length
    · rw [if_pos hmore] at ht
      cases he : es[victim better es]? with
      | none =>
        rw [he] at ht
        exact absurd ht List.not_mem_nil
      | some e =>
        rw [he] at ht
        obtain rfl | ht := List.mem_cons.mp ht
        · rfl
        · exact ih ht
    · rw [if_neg hmore] at ht
      exact absurd ht List.not_mem_nil

/-- Where every victim goes away, the turns take what is removed. -/
theorem map_victim_turns (fuel total : Nat) (es : List α) {budget : Nat} (hgone : ∀ e, gone e = true) :
    (turns size better gone budget fuel total es).1.map Turn.victim = removed size better budget fuel total es := by
  induction fuel generalizing total es with
  | zero => rfl
  | succ fuel ih =>
    unfold turns removed
    by_cases hmore : budget < total ∧ 0 < es.length
    · rw [if_pos hmore, if_pos hmore]
      cases he : es[victim better es]? with
      | none => rfl
      | some e =>
        dsimp only
        rw [if_pos (hgone e), List.map_cons, ih]
    · rw [if_neg hmore, if_neg hmore]
      rfl

/-! ### The sizes of the values of a map -/

section Weigh

variable {κ : Type*} {β : Type*} [DecidableEq κ]

/-- The sum of the weights of the entries. -/
def weigh (w : κ → β → Nat) (s : AList fun _ : κ => β) : Nat :=
  (s.entries.map fun e => w e.1 e.2).sum

variable {w : κ → β → Nat} {s : AList fun _ : κ => β} {a : κ} {b : β}

theorem sum_kerase {l : List (Sigma fun _ : κ => β)} (h : b ∈ l.dlookup a) :
    ((l.kerase a).map fun e => w e.1 e.2).sum + w a b = (l.map fun e => w e.1 e.2).sum := by
  induction l with
  | nil => cases h
  | cons e l ih =>
    by_cases ha : a = e.1
    · obtain ⟨k, v⟩ := e
      obtain rfl : a = k := ha
      rw [List.dlookup_cons_eq] at h
      obtain rfl := Option.mem_some_iff.mp h
      have he : List.kerase a ((⟨a, v⟩ : Sigma fun _ : κ => β) :: l) = l := List.kerase_cons_eq rfl
      rw [he, List.map_cons, List.sum_cons]
      exact Nat.add_comm ..
    · rw [List.dlookup_cons_ne l e ha] at h
      have hrest := ih h
      rw [List.kerase_cons_ne ha, List.map_cons, List.sum_cons, List.map_cons, List.sum_cons]
      omega

omit [DecidableEq κ] in
theorem weigh_empty : weigh w (∅ : AList fun _ : κ => β) = 0 := rfl

theorem weigh_erase (h : s.lookup a = some b) : weigh w (s.erase a) + w a b = weigh w s :=
  sum_kerase (Option.mem_def.mpr h)

theorem erase_of_lookup_none (h : s.lookup a = none) : s.erase a = s := by
  refine AList.ext ?_
  show s.entries.kerase a = s.entries
  exact List.kerase_of_notMem_keys (AList.lookup_eq_none.mp h)

theorem weigh_erase_le : weigh w (s.erase a) ≤ weigh w s := by
  cases h : s.lookup a with
  | none => rw [erase_of_lookup_none h]
  | some b =>
    have hsum := weigh_erase (w := w) h
    omega

theorem weigh_insert : weigh w (s.insert a b) = w a b + weigh w (s.erase a) := by
  unfold weigh
  rw [AList.entries_insert, List.map_cons, List.sum_cons]
  rfl

/-- A value replaced. -/
theorem weigh_insert_of_lookup (w : κ → β → Nat) (b' : β) (h : s.lookup a = some b) :
    weigh w (s.insert a b') + w a b = w a b' + weigh w s := by
  have hsum := weigh_erase (w := w) h
  rw [weigh_insert]
  omega

end Weigh

end DS4.Lib
