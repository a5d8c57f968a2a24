import DS4.Agent.DsmlSteps

namespace DS4.Agent.Dsml

/-!
# Agent — what the parser keeps

A parser that is done has a list of calls, and the text it consumed says which calls there are.

* `Meaning`, `intended` — what some pieces say; `Nested` — no call is opened in a call, and no parameter
  is outside of one.
* `Kept` — what a parser has of the calls so far, and what each piece does to it.
* `keeps_step`, `keeps_runs` — every step keeps it; `keeps_done` — what a parser has when it is done.
-/

open DS4.Tokenizer DS4.Lib

/-! ### What pieces say -/

/-- A parameter of the last call. -/
def addLast (a : ToolArg) : List ToolCall → List ToolCall
  | []           => []
  | [call]       => [call.addArg a]
  | call :: rest => call :: addLast a rest

/-- The calls that some pieces state, whether the last one is still open, and the name and the kind of the last
    parameter tag. -/
structure Meaning where
  calls    : List ToolCall
  isOpen   : Bool
  name     : Bytes
  isString : Bool

/-- Each opening tag is a call, with the parameters behind it; a parameter outside of a call says nothing. -/
def Meaning.read (m : Meaning) : Piece → Option Meaning
  | .blank _     => some m
  | .invoke tag  => some { m with calls := m.calls ++ [⟨parseAttr tag (lit "name"), []⟩], isOpen := true }
  | .param tag   => some
    { m with
      name := (parseAttr tag (lit "name")).getD []
      isString := parseAttr tag (lit "string") = some (lit "true") }
  | .value v _   => if m.isOpen then some { m with calls := addLast ⟨m.name, v, m.isString⟩ m.calls } else none
  | .invokeEnd _ => some { m with isOpen := false }
  | .blockEnd _  => some { m with isOpen := false }

def meaning (ps : List Piece) : Option Meaning := ps.foldlM Meaning.read ⟨[], false, [], false⟩

/-- The calls that some pieces state, if every parameter belongs to one. -/
def intended (ps : List Piece) : Option (List ToolCall) := (meaning ps).map Meaning.calls

/-- Is a call open behind a piece? -/
def nest (isOpen : Bool) : Piece → Option Bool
  | .invoke _    => if isOpen then none else some true
  | .value _ _   => if isOpen then some true else none
  | .invokeEnd _ => some false
  | .blockEnd _  => some false
  | _            => some isOpen

/-- Every call is opened behind the end of the one before it, and every parameter is in a call. -/
def Nested (ps : List Piece) : Prop := (ps.foldlM nest false).isSome = true

instance (ps : List Piece) : Decidable (Nested ps) := inferInstanceAs (Decidable (_ = true))

theorem addLast_append (a : ToolArg) (calls : List ToolCall) (call : ToolCall) :
    addLast a (calls ++ [call]) = calls ++ [call.addArg a] := by
  induction calls with
  | nil => rfl
  | cons c calls ih =>
    cases calls with
    | nil => rfl
    | cons c' calls => exact congrArg (c :: ·) ih

theorem addLast_length (a : ToolArg) (calls : List ToolCall) : (addLast a calls).length = calls.length := by
  induction calls with
  | nil => rfl
  | cons c calls ih =>
    cases calls with
    | nil => rfl
    | cons c' calls => exact congrArg (· + 1) ih

theorem meaning_snoc (ps : List Piece) (x : Piece) : meaning (ps ++ [x]) = (meaning ps).bind (Meaning.read · x) := by
  unfold meaning
  rw [List.foldlM_append]
  simp only [List.foldlM_cons, List.foldlM_nil, bind_pure]
  rfl

theorem meaning_step {ps : List Piece} {x : Piece} {m m' : Meaning} (hm : meaning ps = some m)
    (hread : m.read x = some m') : meaning (ps ++ [x]) = some m' := by
  rw [meaning_snoc, hm]
  exact hread

theorem nest_snoc (ps : List Piece) (x : Piece) :
    (ps ++ [x]).foldlM nest false = (ps.foldlM nest false).bind (nest · x) := by
  rw [List.foldlM_append]
  simp only [List.foldlM_cons, List.foldlM_nil, bind_pure]
  rfl

/-! ### What a parser keeps -/

/-- The call that is open. -/
def openCalls (call : ToolCall) : List ToolCall := if call.name = none then [] else [call]

/-- What a parser has of the calls that some pieces state; `pending` is the parameter whose value it reads.  Where
    the tags are nested it has all of them; and otherwise a call or a parameter is lost for good. -/
def Kept (ps : List Piece) (calls : List ToolCall) (current : ToolCall) (pending : Option (Bytes × Bool)) : Prop :=
  (∀ o, ps.foldlM nest false = some o → ∃ m, meaning ps = some m ∧
    m.calls = calls ++ openCalls current ∧ m.isOpen = o ∧ current.name.isSome = o ∧
    (current.name = none → current.args = []) ∧ ∀ a, pending = some a → (m.name, m.isString) = a) ∧
  (ps.foldlM nest false = none → ∀ m, meaning ps = some m →
    calls.length + (openCalls current).length < m.calls.length)

variable {ps : List Piece} {calls : List ToolCall} {current : ToolCall} {pending : Option (Bytes × Bool)}

theorem kept_init : Kept [] [] ⟨none, []⟩ none := by
  refine ⟨fun o ho => ?_, nofun⟩
  obtain rfl := Option.some.inj ho
  exact ⟨_, rfl, rfl, rfl, rfl, fun _ => rfl, nofun⟩

/-- A blank says nothing. -/
theorem kept_blank (h : Kept ps calls current none) (c : UInt8) : Kept (ps ++ [.blank c]) calls current none := by
  obtain ⟨hnest, hlost⟩ := h
  constructor
  · intro o ho
    rw [nest_snoc] at ho
    obtain ⟨o', ho', hread⟩ := Option.bind_eq_some_iff.mp ho
    obtain rfl : o' = o := Option.some.inj hread
    obtain ⟨m, hm, hrest⟩ := hnest o' ho'
    exact ⟨m, meaning_step hm rfl, hrest⟩
  · intro ho m hm
    rw [nest_snoc] at ho
    rw [meaning_snoc] at hm
    obtain ⟨m', hm', hread⟩ := Option.bind_eq_some_iff.mp hm
    obtain rfl : m' = m := Option.some.inj hread
    refine hlost ?_ m' hm'
    cases hn : ps.foldlM nest false with
    | none => rfl
    | some o =>
      rw [hn] at ho
      exact absurd ho nofun

theorem openCalls_length_le (call : ToolCall) : (openCalls call).length ≤ 1 := by
  unfold openCalls
  split_ifs
  · exact Nat.zero_le 1
  · exact Nat.le_refl 1

/-- A call is opened; one that was open is lost. -/
theorem kept_invoke (h : Kept ps calls current none) {tag name : Bytes} (hname : parseAttr tag (lit "name") = some name) :
    Kept (ps ++ [.invoke tag]) calls ⟨some name, []⟩ none := by
  obtain ⟨hnest, hlost⟩ := h
  have hread : ∀ m : Meaning, m.read (.invoke tag) = some { m with calls := m.calls ++ [⟨some name, []⟩], isOpen := true } := by
    intro m
    rw [← hname]
    rfl
  constructor
  · intro o ho
    rw [nest_snoc] at ho
    obtain ⟨o', ho', hstep⟩ := Option.bind_eq_some_iff.mp ho
    obtain ⟨m, hm, hcalls, -, hopen, -⟩ := hnest o' ho'
    cases o' with
    | true => exact absurd hstep nofun
    | false =>
      obtain rfl : true = o := Option.some.inj hstep
      have hnone : openCalls current = [] := if_pos (Option.not_isSome_iff_eq_none.mp (by rw [hopen]; exact nofun))
      refine ⟨_, meaning_step hm (hread m), ?_, rfl, rfl, fun hn => absurd hn nofun, nofun⟩
      show m.calls ++ [_] = calls ++ [_]
      rw [hcalls, hnone, List.append_nil]
  · intro ho m hm
    rw [meaning_snoc] at hm
    obtain ⟨m', hm', hstep⟩ := Option.bind_eq_some_iff.mp hm
    rw [hread] at hstep
    obtain rfl := Option.some.inj hstep
    show calls.length + 1 < (m'.calls ++ [_]).length
    rw [List.length_append, List.length_singleton]
    rw [nest_snoc] at ho
    cases hn : ps.foldlM nest false with
    | none =>
      have hlt := hlost hn m' hm'
      omega
    | some o =>
      rw [hn] at ho
      obtain ⟨m, hm, hcalls, -, hopen, -⟩ := hnest o hn
      obtain rfl := Option.some.inj (hm.symm.trans hm')
      cases o with
      | false => exact absurd ho nofun
      | true =>
        -- the call that was open
        have hone : openCalls current = [current] := if_neg fun hnone => by
          rw [hnone] at hopen
          exact absurd hopen nofun
        rw [hcalls, hone, List.length_append, List.length_singleton]
        omega

/-- A parameter is opened. -/
theorem kept_param (h : Kept ps calls current none) {tag name : Bytes} (hname : parseAttr tag (lit "name") = some name) :
    Kept (ps ++ [.param tag]) calls current
      (some (name, decide (parseAttr tag (lit "string") = some (lit "true")))) := by
  obtain ⟨hnest, hlost⟩ := h
  constructor
  · intro o ho
    rw [nest_snoc] at ho
    obtain ⟨o', ho', hstep⟩ := Option.bind_eq_some_iff.mp ho
    obtain rfl : o' = o := Option.some.inj hstep
    obtain ⟨m, hm, hcalls, hopen, hsome, hargs, -⟩ := hnest o' ho'
    have hread : m.read (.param tag) = some { m with
        name := (parseAttr tag (lit "name")).getD []
        isString := parseAttr tag (lit "string") = some (lit "true") } := rfl
    refine ⟨_, meaning_step hm hread, hcalls, hopen, hsome, hargs, fun a ha => ?_⟩
    rw [← Option.some.inj ha, hname]
    rfl
  · intro ho m hm
    rw [nest_snoc] at ho
    rw [meaning_snoc] at hm
    obtain ⟨m', hm', hstep⟩ := Option.bind_eq_some_iff.mp hm
    obtain rfl := Option.some.inj hstep
    refine hlost ?_ m' hm'
    cases hn : ps.foldlM nest false with
    | none => rfl
    | some o =>
      rw [hn] at ho
      exact absurd ho nofun

/-- A value ends; outside of a call it is lost. -/
theorem kept_value {name : Bytes} {isString : Bool} (h : Kept ps calls current (some (name, isString)))
    (v close : Bytes) : Kept (ps ++ [.value v close]) calls (current.addArg ⟨name, v, isString⟩) none := by
  obtain ⟨hnest, hlost⟩ := h
  have hopens : ∀ a, (openCalls (current.addArg a)).length = (openCalls current).length := by
    intro a
    show (if current.name = none then _ else _ : List ToolCall).length =
      (if current.name = none then _ else _ : List ToolCall).length
    split_ifs <;> rfl
  constructor
  · intro o ho
    rw [nest_snoc] at ho
    obtain ⟨o', ho', hstep⟩ := Option.bind_eq_some_iff.mp ho
    obtain ⟨m, hm, hcalls, hopen, hsome, -, harg⟩ := hnest o' ho'
    cases o' with
    | false => exact absurd hstep nofun
    | true =>
      obtain rfl : true = o := Option.some.inj hstep
      obtain ⟨rfl, rfl⟩ := Prod.mk.inj (harg _ rfl)
      have hne : current.name ≠ none := fun hnone => by
        rw [hnone] at hsome
        exact absurd hsome nofun
      have hone : openCalls current = [current] := if_neg hne
      have hread : m.read (.value v close) =
          some { m with calls := addLast ⟨m.name, v, m.isString⟩ m.calls } := if_pos hopen
      refine ⟨_, meaning_step hm hread, ?_, hopen, hsome, fun hnone => absurd hnone hne, nofun⟩
      show addLast _ m.calls = calls ++ openCalls (current.addArg _)
      rw [hcalls, hone, addLast_append]
      exact congrArg (calls ++ ·) (if_neg hne).symm
  · intro ho m hm
    rw [nest_snoc] at ho
    rw [meaning_snoc] at hm
    obtain ⟨m', hm', hstep⟩ := Option.bind_eq_some_iff.mp hm
    cases hopen : m'.isOpen with
    | false =>
      unfold Meaning.read at hstep
      rw [hopen] at hstep
      exact absurd hstep nofun
    | true =>
      unfold Meaning.read at hstep
      rw [hopen] at hstep
      obtain rfl := Option.some.inj hstep
      show _ < (addLast _ m'.calls).length
      rw [addLast_length, hopens]
      cases hn : ps.foldlM nest false with
      | none => exact hlost hn m' hm'
      | some o =>
        -- a value in a call is nested
        rw [hn] at ho
        obtain ⟨m, hm, -, hopen', -⟩ := hnest o hn
        obtain rfl := Option.some.inj (hm.symm.trans hm')
        obtain rfl := (hopen.symm).trans hopen'
        exact absurd ho nofun

/-- A call ends. -/
theorem kept_end (h : Kept ps calls current none) {x : Piece}
    (hx : (∃ close, x = .invokeEnd close) ∨ ∃ close, x = .blockEnd close) :
    Kept (ps ++ [x]) (pushCall calls current).1 (pushCall calls current).2 none := by
  obtain ⟨hnest, hlost⟩ := h
  have hread : ∀ m : Meaning, m.read x = some { m with isOpen := false } := by
    rcases hx with ⟨close, rfl⟩ | ⟨close, rfl⟩ <;> exact fun _ => rfl
  have hstep : ∀ o, nest o x = some false := by
    rcases hx with ⟨close, rfl⟩ | ⟨close, rfl⟩ <;> exact fun _ => rfl
  have hpush : (pushCall calls current).1 = calls ++ openCalls current ∧ (pushCall calls current).2.name = none ∧
      ((current.name = none → current.args = []) → (pushCall calls current).2.args = []) := by
    unfold pushCall openCalls
    split_ifs with hname
    · exact ⟨(List.append_nil _).symm, hname, fun hargs => hargs hname⟩
    · exact ⟨rfl, rfl, fun _ => rfl⟩
  obtain ⟨hcalls', hname', hargs'⟩ := hpush
  have hnone : openCalls (pushCall calls current).2 = [] := if_pos hname'
  constructor
  · intro o ho
    rw [nest_snoc] at ho
    obtain ⟨o', ho', hend⟩ := Option.bind_eq_some_iff.mp ho
    obtain rfl : false = o := Option.some.inj ((hstep o').symm.trans hend)
    obtain ⟨m, hm, hcalls, -, -, hargs, -⟩ := hnest o' ho'
    refine ⟨_, meaning_step hm (hread m), ?_, rfl, by rw [hname']; rfl, fun _ => hargs' hargs, nofun⟩
    show m.calls = _
    rw [hcalls, hcalls', hnone, List.append_nil]
  · intro ho m hm
    rw [nest_snoc] at ho
    rw [meaning_snoc] at hm
    obtain ⟨m', hm', hend⟩ := Option.bind_eq_some_iff.mp hm
    rw [hread] at hend
    obtain rfl := Option.some.inj hend
    show _ < m'.calls.length
    rw [hcalls', hnone, List.length_append]
    refine hlost ?_ m' hm'
    cases hn : ps.foldlM nest false with
    | none => rfl
    | some o =>
      rw [hn] at ho
      exact absurd ((hstep o).symm.trans ho) nofun

/-! ### What a parser keeps, step by step -/

/-- The parameter whose value a parser reads. -/
def Parser.openParam (p : Parser) : Option (Bytes × Bool) :=
  if p.state = .paramValue then some (p.paramName.getD [], p.paramIsString) else none

/-- A parser has what its pieces state, up to an error. -/
def Parser.Keeps (p : Parser) : Prop :=
  p.state ≠ .error → Kept p.consumed p.calls p.current p.openParam ∧ (p.state = .done → p.current.name = none)

variable {p q : Parser}

theorem openParam_none (h : p.state ≠ .paramValue) : p.openParam = none := if_neg h

theorem pushCall_none (calls : List ToolCall) (call : ToolCall) : (pushCall calls call).2.name = none := by
  unfold pushCall
  split_ifs with hname
  · exact hname
  · rfl

/-- **A step** keeps the calls, whatever the piece is. -/
theorem keeps_step (h : p.step = some q) (hp : p.Keeps) : q.Keeps := by
  -- what a parser between two tags has
  have hplain : p.state = .structural → Kept p.consumed p.calls p.current none := by
    intro hst
    have hkept := (hp (by rw [hst]; exact nofun)).1
    rw [openParam_none (by rw [hst]; exact nofun)] at hkept
    exact hkept
  obtain ⟨hst, i, n, -, rfl⟩ | ⟨hst, c, t, -, -, rfl⟩ | ⟨hst, n, -, rfl⟩ | ⟨hst, n, -, rfl⟩ | ⟨hst, k, -, rfl⟩ :=
    step_cases h
  · intro _
    have hkept := (hp (by rw [hst]; exact nofun)).1
    have hpending : p.openParam = some (p.paramName.getD [], p.paramIsString) := if_pos hst
    rw [hpending] at hkept
    exact ⟨kept_value hkept _ _, nofun⟩
  · intro _
    have hne : (p.advance (.blank c)).state ≠ .paramValue := fun hp => absurd (hst.symm.trans hp) nofun
    rw [openParam_none hne]
    exact ⟨kept_blank (hplain hst) c, fun hdone => absurd (hst.symm.trans hdone) nofun⟩
  · intro _
    exact ⟨kept_end (hplain hst) (Or.inr ⟨_, rfl⟩), fun _ => pushCall_none p.calls p.current⟩
  · intro _
    exact ⟨kept_end (hplain hst) (Or.inl ⟨_, rfl⟩), nofun⟩
  · obtain ⟨name, -, hname, heq⟩ | ⟨name, -, hname, heq⟩ | ⟨herror, -⟩ := openTag_cases p (p.rest.take (k + 1))
    · intro _
      have hne : (p.openCall (p.rest.take (k + 1)) name).state ≠ .paramValue := fun hp =>
        absurd (hst.symm.trans hp) nofun
      rw [heq, openParam_none hne]
      exact ⟨kept_invoke (hplain hst) hname, fun hdone => absurd (hst.symm.trans hdone) nofun⟩
    · intro _
      rw [heq]
      exact ⟨kept_param (hplain hst) hname, nofun⟩
    · exact fun hne => absurd herror hne

theorem keeps_runs (h : Runs Parser.step p q) (hp : p.Keeps) : q.Keeps :=
  @Runs.invariant _ Parser.step p q Parser.Keeps (fun _ _ hstep hs => keeps_step hstep hs) h hp

/-- **A parser that is done** has the calls that its pieces state, if and only if the tags are nested. -/
theorem keeps_done (hp : p.Keeps) (hdone : p.state = .done) :
    intended p.consumed = some p.calls ↔ Nested p.consumed := by
  obtain ⟨⟨hnest, hlost⟩, hnone⟩ := hp (by rw [hdone]; exact nofun)
  have hclosed : openCalls p.current = [] := if_pos (hnone hdone)
  rw [hclosed] at hnest hlost
  constructor
  · intro h
    obtain ⟨m, hm, hcalls⟩ := Option.map_eq_some_iff.mp h
    by_contra hnot
    have hlt := hlost (Option.not_isSome_iff_eq_none.mp hnot) m hm
    rw [hcalls] at hlt
    exact Nat.lt_irrefl _ hlt
  · intro h
    obtain ⟨o, ho⟩ := Option.isSome_iff_exists.mp h
    obtain ⟨m, hm, hcalls, -⟩ := hnest o ho
    rw [List.append_nil] at hcalls
    exact Option.map_eq_some_iff.mpr ⟨m, hm, hcalls⟩

end DS4.Agent.Dsml
