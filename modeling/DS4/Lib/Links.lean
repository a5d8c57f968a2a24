import Mathlib.Data.List.Nodup
import Mathlib.Logic.Function.Basic

namespace DS4.Lib

/-!
# Intrusive doubly linked lists

Nodes carry their links themselves: each node has a predecessor and a successor, and the list has a
head and a tail.

* `Links` — the head, the tail, and the links of every node.
* `Links.Spells` — following the links from the head gives a list of nodes, and so does following
  them back from the tail.
* `Links.linkHead`, `Links.unlink` — a node put in front, and a node taken out.
  `Spells.linkHead` and `Spells.unlink` say which list they leave.
-/

variable {α : Type*} [DecidableEq α]

/-- The links of a doubly linked list. -/
structure Links (α : Type*) where
  head : Option α
  tail : Option α
  prev : α → Option α
  next : α → Option α

/-- No node is linked. -/
def Links.empty : Links α := ⟨none, none, fun _ => none, fun _ => none⟩

/-- A node put in front. -/
def Links.linkHead (l : Links α) (e : α) : Links α :=
  let prev := Function.update l.prev e none
  let next := Function.update l.next e l.head
  match l.head with
  | some h => { l with prev := Function.update prev h (some e), next := next, head := some e }
  | none   => { l with prev := prev, next := next, tail := some e, head := some e }

/-- The link that leads to a node from the front is set past it. -/
def Links.skipForward (l : Links α) (e : α) : Links α :=
  match l.prev e with
  | some p => { l with next := Function.update l.next p (l.next e) }
  | none   => { l with head := l.next e }

/-- The link that leads to a node from the back is set past it. -/
def Links.skipBack (l : Links α) (e : α) : Links α :=
  match l.next e with
  | some n => { l with prev := Function.update l.prev n (l.prev e) }
  | none   => { l with tail := l.prev e }

/-- A node taken out. -/
def Links.unlink (l : Links α) (e : α) : Links α :=
  let l := (l.skipForward e).skipBack e
  { l with prev := Function.update l.prev e none, next := Function.update l.next e none }

/-- **The links spell a list**: every node of it has its neighbours in the list as its links. -/
structure Links.Spells (l : Links α) (xs : List α) : Prop where
  nodup : xs.Nodup
  head : l.head = xs.head?
  tail : l.tail = xs.getLast?
  links : ∀ a x b, xs = a ++ x :: b → l.prev x = a.getLast? ∧ l.next x = b.head?

omit [DecidableEq α] in
theorem Links.spells_empty : (Links.empty : Links α).Spells [] where
  nodup := List.nodup_nil
  head := rfl
  tail := rfl
  links := fun a x b h => by simp at h

namespace Links.Spells

variable {l : Links α} {xs : List α} {e : α}

/-- **A node put in front.** -/
theorem linkHead (h : l.Spells xs) (he : e ∉ xs) : (l.linkHead e).Spells (e :: xs) where
  nodup := List.nodup_cons.mpr ⟨he, h.nodup⟩
  head := by unfold Links.linkHead; split <;> rfl
  tail := by
    unfold Links.linkHead
    cases xs with
    | nil => simp [h.head]
    | cons y ys => simp [h.head, h.tail]
  links := fun a x b hsplit => by
    cases a with
    | nil =>
      -- the node itself: nothing before it, the old list after it
      obtain ⟨rfl, rfl⟩ : e = x ∧ xs = b := by simpa using hsplit
      unfold Links.linkHead
      cases hs : xs with
      | nil => simp [h.head, hs]
      | cons y ys =>
        have hey : e ≠ y := fun hey => he (by rw [hs, hey]; exact List.mem_cons_self ..)
        simp [h.head, hs, Function.update_of_ne hey]
    | cons z a =>
      obtain ⟨rfl, hab⟩ : e = z ∧ xs = a ++ x :: b := by simpa using hsplit
      obtain ⟨hprev, hnext⟩ := h.links a x b hab
      have hxe : x ≠ e := fun hxe => he (by rw [hab, ← hxe]; simp)
      unfold Links.linkHead
      cases a with
      | nil => simp [h.head, hab, Function.update_of_ne hxe, hnext]
      | cons y ys =>
        -- only the old head gets a new predecessor
        have hxy : x ≠ y := fun hxy => by
          have hnodup := h.nodup
          rw [hab, hxy] at hnodup
          simp at hnodup
        simp [h.head, hab, Function.update_of_ne hxe, Function.update_of_ne hxy, hprev, hnext]

end Links.Spells

/-! ### Taking a node out -/

section Unlink

variable {l : Links α} {e x : α}

theorem Links.unlink_head (he : l.prev e ≠ some e) :
    (l.unlink e).head = if l.prev e = none then l.next e else l.head := by
  unfold Links.unlink Links.skipBack Links.skipForward
  cases hp : l.prev e with
  | none => cases l.next e <;> simp
  | some p =>
    have hpe : e ≠ p := fun hpe => he (by rw [hp, hpe])
    simp only [Function.update_of_ne hpe]
    cases l.next e <;> simp

theorem Links.unlink_tail (he : l.prev e ≠ some e) :
    (l.unlink e).tail = if l.next e = none then l.prev e else l.tail := by
  unfold Links.unlink Links.skipBack Links.skipForward
  cases hp : l.prev e with
  | none => cases hn : l.next e <;> simp [hp]
  | some p =>
    have hpe : e ≠ p := fun hpe => he (by rw [hp, hpe])
    simp only [Function.update_of_ne hpe]
    cases hn : l.next e <;> simp [hp]

theorem Links.unlink_next (he : l.prev e ≠ some e) (hx : x ≠ e) :
    (l.unlink e).next x = if l.prev e = some x then l.next e else l.next x := by
  unfold Links.unlink Links.skipBack Links.skipForward
  cases hp : l.prev e with
  | none => cases hn : l.next e <;> simp [Function.update_of_ne hx]
  | some p =>
    have hpe : e ≠ p := fun hpe => he (by rw [hp, hpe])
    simp only [Function.update_of_ne hpe]
    cases hn : l.next e <;> by_cases hpx : x = p <;>
      simp [Function.update_of_ne hx, hpx, hpe, eq_comm]

theorem Links.unlink_prev (he : l.prev e ≠ some e) (hx : x ≠ e) :
    (l.unlink e).prev x = if l.next e = some x then l.prev e else l.prev x := by
  unfold Links.unlink Links.skipBack Links.skipForward
  cases hp : l.prev e with
  | none =>
    cases hn : l.next e with
    | none => simp [Function.update_of_ne hx]
    | some n => by_cases hnx : x = n <;>
        simp [Function.update_of_ne hx, Function.update_apply, hnx, hp, eq_comm]
  | some p =>
    have hpe : e ≠ p := fun hpe => he (by rw [hp, hpe])
    simp only [Function.update_of_ne hpe]
    cases hn : l.next e with
    | none => simp [Function.update_of_ne hx]
    | some n =>
      by_cases hnx : x = n
      · have hen : e ≠ n := fun hen => hx (hnx.trans hen.symm)
        simp [hnx, hp, hen, eq_comm]
      · simp [Function.update_of_ne hx, hnx, hp, eq_comm]

/-- **A node taken out.** -/
theorem Links.Spells.unlink {a b : List α} (h : l.Spells (a ++ e :: b)) :
    (l.unlink e).Spells (a ++ b) := by
  obtain ⟨hprev, hnext⟩ := h.links a e b rfl
  have hnodup := h.nodup
  rw [List.nodup_middle, List.nodup_cons, List.mem_append, not_or] at hnodup
  obtain ⟨⟨hea, heb⟩, hab⟩ := hnodup
  have hself : l.prev e ≠ some e := fun hp => hea (List.mem_of_getLast? (hprev.symm.trans hp))
  refine ⟨hab, ?_, ?_, fun c x d hcd => ?_⟩
  · rw [Links.unlink_head hself, hprev, hnext, h.head]
    cases a <;> simp
  · rw [Links.unlink_tail hself, hprev, hnext, h.tail]
    cases b <;> simp
  · have hx : x ≠ e := fun hx => by
      have hmem : x ∈ a ++ b := by rw [hcd]; simp
      rw [hx, List.mem_append] at hmem
      exact hmem.elim hea heb
    have hdisj := (List.nodup_append.mp hab).2.2
    rw [Links.unlink_prev hself hx, Links.unlink_next hself hx, hprev, hnext]
    rcases List.append_eq_append_iff.mp hcd with ⟨c', rfl, hb⟩ | ⟨a', ha, hd⟩
    · -- `x` is after the node
      have hxb : x ∈ b := by rw [hb]; simp
      obtain ⟨hp, hn⟩ := h.links (a ++ e :: c') x d (by rw [hb]; simp)
      have hxa : a.getLast? ≠ some x := fun hxa =>
        hdisj x (List.mem_of_getLast? hxa) x hxb rfl
      rw [if_neg hxa, hp, hn]
      cases c' with
      | nil => simp [hb]
      | cons y ys =>
        have hyx : y ≠ x := fun hyx => by
          have hb' := (List.nodup_append.mp hab).2.1
          rw [hb, hyx] at hb'
          simp at hb'
        simp [hb, hyx]
    · -- `x` is before the node
      cases a' with
      | nil =>
        -- or it starts the second half
        have hb : b = x :: d := by simpa using hd.symm
        obtain ⟨hp, hn⟩ := h.links (a ++ [e]) x d (by rw [hb]; simp)
        have hxa : a.getLast? ≠ some x := fun hxa =>
          hdisj x (List.mem_of_getLast? hxa) x (by rw [hb]; exact List.mem_cons_self ..) rfl
        rw [if_neg hxa, hn]
        simp [hb, ha]
      | cons y a' =>
        obtain ⟨rfl, rfl⟩ : x = y ∧ d = a' ++ b := by simpa using hd
        obtain ⟨hp, hn⟩ := h.links c x (a' ++ e :: b) (by rw [ha]; simp)
        have hxb : b.head? ≠ some x := fun hxb =>
          hdisj x (by rw [ha]; simp) x (List.mem_of_head? hxb) rfl
        rw [if_neg hxb, hp, hn, ha]
        cases a' with
        | nil => simp
        | cons z zs =>
          have hlast : (c ++ x :: z :: zs).getLast? ≠ some x := fun hlast => by
            have hc := (List.nodup_append.mp hab).1
            rw [ha, List.nodup_append, List.nodup_cons] at hc
            apply hc.2.1.1
            rw [List.getLast?_append, List.getLast?_cons_cons] at hlast
            exact List.mem_of_getLast? (by simpa using hlast)
          rw [if_neg hlast]
          simp

end Unlink

end DS4.Lib
