import Mathlib.Data.List.Basic

namespace DS4.Lib

/-!
# Reading from a stream into a state

A reader takes bytes from a stream, of which a declared number belongs to it, and changes a state
as it goes.  An error ends it and keeps what has been changed so far.

* `Source` — the stream, the position in it, and what is left of the declared number;
  `Source.Next` says what comes next.
* `Reader` — the monad; `Reader.exec` runs one, and the `exec_` lemmas say how the parts of a
  reader run.
-/

/-- A stream that is read from `pos` on; `remaining` bytes more belong to the reader. -/
structure Source where
  data : List UInt8
  pos : Nat
  remaining : Nat

/-- `n` bytes further. -/
def Source.skip (fp : Source) (n : Nat) : Source :=
  { fp with pos := fp.pos + n, remaining := fp.remaining - n }

/-- The next `n` bytes, or as many as there are. -/
def Source.peek (fp : Source) (n : Nat) : List UInt8 := (fp.data.drop fp.pos).take n

/-- The next `n` bytes are there. -/
def Source.Has (fp : Source) (n : Nat) : Prop := n ≤ fp.data.length - fp.pos

instance (fp : Source) (n : Nat) : Decidable (fp.Has n) := inferInstanceAs (Decidable (_ ≤ _))

theorem Source.peek_length {fp : Source} {n : Nat} (h : fp.Has n) : (fp.peek n).length = n := by
  unfold Has at h
  rw [peek, List.length_take, List.length_drop]
  omega

@[simp] theorem Source.skip_skip (fp : Source) (a b : Nat) :
    (fp.skip a).skip b = fp.skip (a + b) := by
  unfold skip
  dsimp only
  rw [Nat.add_assoc, Nat.sub_sub]

@[simp] theorem Source.skip_data (fp : Source) (n : Nat) : (fp.skip n).data = fp.data := rfl
@[simp] theorem Source.skip_pos (fp : Source) (n : Nat) : (fp.skip n).pos = fp.pos + n := rfl
@[simp] theorem Source.skip_remaining (fp : Source) (n : Nat) :
    (fp.skip n).remaining = fp.remaining - n := rfl

/-- How many bytes the reader can still get. -/
def Source.avail (fp : Source) : Nat := min fp.remaining (fp.data.length - fp.pos)

theorem Source.avail_skip (fp : Source) (n : Nat) : (fp.skip n).avail = fp.avail - n := by
  unfold avail
  rw [skip_data, skip_pos, skip_remaining]
  omega

theorem Source.peek_length_le (fp : Source) (n : Nat) : (fp.peek n).length ≤ n := by
  rw [peek, List.length_take]
  omega

theorem Source.peek_length_of_avail {fp : Source} {n : Nat} (h : n ≤ fp.avail) :
    (fp.peek n).length = n := by
  unfold avail at h
  exact peek_length (show n ≤ fp.data.length - fp.pos by omega)

/-- Consecutive bytes. -/
theorem Source.peek_add (fp : Source) (a b : Nat) :
    fp.peek (a + b) = fp.peek a ++ (fp.skip a).peek b := by
  rw [peek, peek, peek, skip_data, skip_pos, List.take_add, List.drop_drop]

/-- The stream goes on with these bytes, and they belong to the reader. -/
structure Source.Next (fp : Source) (bs : List UInt8) : Prop where
  pre : bs <+: fp.data.drop fp.pos
  le : bs.length ≤ fp.remaining

namespace Source.Next

variable {fp : Source} {bs cs : List UInt8}

theorem peek (h : fp.Next bs) : fp.peek bs.length = bs := (List.prefix_iff_eq_take.mp h.pre).symm

theorem has (h : fp.Next bs) : fp.Has bs.length := by
  have hle := h.pre.length_le
  rw [List.length_drop] at hle
  exact hle

theorem le_avail (h : fp.Next bs) : bs.length ≤ fp.avail := by
  have hhas := h.has
  have hle := h.le
  unfold Has at hhas
  unfold avail
  omega

theorem left (h : fp.Next (bs ++ cs)) : fp.Next bs := by
  have hle := h.le
  rw [List.length_append] at hle
  exact ⟨(List.prefix_append bs cs).trans h.pre, by omega⟩

theorem right (h : fp.Next (bs ++ cs)) : (fp.skip bs.length).Next cs := by
  have hle := h.le
  rw [List.length_append] at hle
  refine ⟨?_, by rw [skip_remaining]; omega⟩
  obtain ⟨t, ht⟩ := h.pre
  refine ⟨t, ?_⟩
  rw [skip_data, skip_pos, ← List.drop_drop, ← ht, List.append_assoc, List.drop_left]

end Source.Next

/-- A reader with errors `ε` over the state `σ`. -/
abbrev Reader (ε σ : Type) := ExceptT ε (StateM (Source × σ))

namespace Reader

variable {ε σ α β : Type}

/-- Run a reader. -/
def exec (x : Reader ε σ α) (st : Source × σ) : Except ε α × Source × σ := (ExceptT.run x).run st

/-- A reader given by what it does. -/
def of (f : Source × σ → Except ε α × Source × σ) : Reader ε σ α := ExceptT.mk f

@[simp] theorem exec_of (f : Source × σ → Except ε α × Source × σ) (st : Source × σ) :
    exec (of f) st = f st := rfl

@[simp] theorem exec_pure (a : α) (st : Source × σ) :
    exec (pure a : Reader ε σ α) st = (.ok a, st) := rfl

@[simp] theorem exec_throw (e : ε) (st : Source × σ) :
    exec (throw e : Reader ε σ α) st = (.error e, st) := rfl

theorem exec_bind_ok {x : Reader ε σ α} {f : α → Reader ε σ β} {st st' : Source × σ} {a : α}
    (h : exec x st = (.ok a, st')) : exec (x >>= f) st = exec (f a) st' := by
  unfold exec at h ⊢
  rw [ExceptT.run_bind, StateT.run_bind, h]
  rfl

theorem exec_bind_error {x : Reader ε σ α} {f : α → Reader ε σ β} {st st' : Source × σ} {e : ε}
    (h : exec x st = (.error e, st')) : exec (x >>= f) st = (.error e, st') := by
  unfold exec at h ⊢
  rw [ExceptT.run_bind, StateT.run_bind, h]
  rfl

/-! ### The state apart from the stream -/

/-- The state. -/
def getState : Reader ε σ σ := of fun st => (.ok st.2, st)

/-- What is left of the declared number. -/
def getRemaining : Reader ε σ Nat := of fun st => (.ok st.1.remaining, st)

/-- Change the state. -/
def modifyState (f : σ → σ) : Reader ε σ Unit := of fun st => (.ok (), st.1, f st.2)

@[simp] theorem exec_getState (st : Source × σ) :
    exec (getState : Reader ε σ σ) st = (.ok st.2, st) := rfl

@[simp] theorem exec_getRemaining (st : Source × σ) :
    exec (getRemaining : Reader ε σ Nat) st = (.ok st.1.remaining, st) := rfl

@[simp] theorem exec_modifyState (f : σ → σ) (st : Source × σ) :
    exec (modifyState f : Reader ε σ Unit) st = (.ok (), st.1, f st.2) := rfl

/-- Readers that do the same are the same. -/
theorem ext {x y : Reader ε σ α} (h : ∀ st, exec x st = exec y st) : x = y := funext h

theorem modifyState_id : (modifyState id : Reader ε σ Unit) = pure () := rfl

theorem modifyState_comp (f g : σ → σ) :
    (modifyState (g ∘ f) : Reader ε σ Unit) = modifyState f >>= fun _ => modifyState g := rfl

/-! ### Loops -/

variable {ι : Type}

/-- A loop over groups. -/
theorem forM_flatMap {κ : Type} (l : List ι) (P : ι → List κ) (f : κ → Reader ε σ PUnit) :
    forM (l.flatMap P) f = forM l fun i => forM (P i) f := by
  induction l with
  | nil => rfl
  | cons i l ih => rw [List.flatMap_cons, List.forM_append, List.forM_cons, ih]

theorem exec_forM_nil (f : ι → Reader ε σ PUnit) (st : Source × σ) :
    exec (forM ([] : List ι) f) st = (.ok ⟨⟩, st) := rfl

theorem exec_forM_cons_ok {i : ι} {l : List ι} {f : ι → Reader ε σ PUnit} {st st' : Source × σ}
    (h : exec (f i) st = (.ok ⟨⟩, st')) : exec (forM (i :: l) f) st = exec (forM l f) st' := by
  rw [List.forM_cons]
  exact exec_bind_ok h

theorem exec_forM_cons_error {i : ι} {l : List ι} {f : ι → Reader ε σ PUnit}
    {st st' : Source × σ} {e : ε} (h : exec (f i) st = (.error e, st')) :
    exec (forM (i :: l) f) st = (.error e, st') := by
  rw [List.forM_cons]
  exact exec_bind_error h

end Reader

end DS4.Lib
