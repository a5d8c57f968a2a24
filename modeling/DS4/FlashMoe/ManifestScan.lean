import DS4.FlashMoe.ManifestText
import DS4.Lib.JsonTree
import DS4.Lib.Loop

namespace DS4.FlashMoe

/-!
# Flash-MoE — the scan of a manifest that is JSON

The list of entries is scanned with its own count of braces and quotation marks.  On JSON it stops
where the objects end, and on every text it stops.

* `Passes` — the scan of an object goes over a text, from one state to another.
* `neutral_text` — a JSON text leaves the scan where it was; `objectLength_value` — **an object** is
  as long as the scan says.
* `entriesLoop_row` — the objects of a JSON array are visited one by one, up to something else.
* `entriesLoop_ends`, `findKeyLoop_ends` — **the loops end** on every text.
-/

open DS4.Server (Bytes lit cstr strstr isspace)
open DS4.Lib (Ends)

variable {x y rest : Bytes} {d : Nat} {st st' st'' : Scan}

/-! ### The scan of an object -/

/-- The scan goes over a text that does not end the object. -/
def Passes (st st' : Scan) (x : Bytes) : Prop := objectLength x st = none ∧ x.foldl Scan.step st = st'

theorem Passes.nil : Passes st st [] := ⟨rfl, rfl⟩

theorem Passes.append (hx : Passes st st' x) (hy : Passes st' st'' y) : Passes st st'' (x ++ y) := by
  obtain ⟨hx1, hx2⟩ := hx
  obtain ⟨hy1, hy2⟩ := hy
  constructor
  · rw [objectLength_append hx1, hx2, hy1]
    rfl
  · rw [List.foldl_append, hx2, hy2]

theorem Passes.cons {c : UInt8} (hc : Passes st st' [c]) (hx : Passes st' st'' x) : Passes st st'' (c :: x) :=
  hc.append hx

/-- A byte that is no closing brace of an object. -/
theorem passes_byte {c : UInt8} (h : st.step c = st')
    (hgo : c ≠ '\x7d'.toUInt8 ∨ st.inString = true ∨ st'.depth ≠ 0) : Passes st st' [c] := by
  constructor
  · rw [objectLength, if_neg]
    · rfl
    · rintro ⟨hc, hs, hd⟩
      rw [h] at hd
      rcases hgo with hgo | hgo | hgo
      · exact hgo hc
      · rw [hs] at hgo
        exact absurd hgo (by simp)
      · exact hgo hd
  · exact h

/-- A text that leaves the scan where it was. -/
def Neutral (x : Bytes) : Prop := ∀ d, 0 < d → Passes ⟨d, false, false⟩ ⟨d, false, false⟩ x

theorem Neutral.append (hx : Neutral x) (hy : Neutral y) : Neutral (x ++ y) :=
  fun d hd => (hx d hd).append (hy d hd)

/-- Bytes that are neither braces nor quotation marks. -/
def Quiet (c : UInt8) : Prop := c ≠ '"'.toUInt8 ∧ c ≠ '\x7b'.toUInt8 ∧ c ≠ '\x7d'.toUInt8

instance (c : UInt8) : Decidable (Quiet c) := inferInstanceAs (Decidable (_ ∧ _))

theorem neutral_quiet (h : ∀ c ∈ x, Quiet c) : Neutral x := by
  intro d hd
  induction x with
  | nil => exact Passes.nil
  | cons c x ih =>
    obtain ⟨hquote, hopen, hclose⟩ := h c List.mem_cons_self
    refine Passes.cons (passes_byte ?_ (Or.inl hclose)) (ih fun e he => h e (List.mem_cons_of_mem c he))
    unfold Scan.step
    rw [if_neg (by simp), if_neg hquote, if_neg hopen, if_neg hclose]

theorem neutral_byte {c : UInt8} (h : Quiet c) : Neutral [c] := neutral_quiet (List.forall_mem_singleton.mpr h)

/-- Braces around a text. -/
theorem neutral_braces (hx : Neutral x) : Neutral ('\x7b'.toUInt8 :: (x ++ ['\x7d'.toUInt8])) := by
  intro d hd
  have hopen : Passes ⟨d, false, false⟩ ⟨d + 1, false, false⟩ ['\x7b'.toUInt8] :=
    passes_byte rfl (Or.inl (by decide))
  have hclose : Passes ⟨d + 1, false, false⟩ ⟨d, false, false⟩ ['\x7d'.toUInt8] :=
    passes_byte rfl (Or.inr (Or.inr (by show d ≠ 0; omega)))
  exact hopen.cons ((hx (d + 1) (Nat.succ_pos d)).append hclose)

/-! ### String literals -/

/-- A byte inside a string that neither ends it nor escapes the next one. -/
theorem passes_inside {c : UInt8} (hquote : c ≠ '"'.toUInt8) (hslash : c ≠ '\\'.toUInt8) :
    Passes ⟨d, true, false⟩ ⟨d, true, false⟩ [c] := by
  refine passes_byte ?_ (Or.inr (Or.inl rfl))
  unfold Scan.step
  rw [if_pos rfl, if_neg (by simp), if_neg hslash, if_neg hquote]

theorem passes_inside_all (h : ∀ c ∈ x, c ≠ '"'.toUInt8 ∧ c ≠ '\\'.toUInt8) :
    Passes ⟨d, true, false⟩ ⟨d, true, false⟩ x := by
  induction x with
  | nil => exact Passes.nil
  | cons c x ih =>
    obtain ⟨hquote, hslash⟩ := h c List.mem_cons_self
    exact (passes_inside hquote hslash).cons (ih fun e he => h e (List.mem_cons_of_mem c he))

/-- A backslash and the byte that it escapes. -/
theorem passes_escape (c : UInt8) : Passes ⟨d, true, false⟩ ⟨d, true, false⟩ ['\\'.toUInt8, c] := by
  have hslash : Passes ⟨d, true, false⟩ ⟨d, true, true⟩ ['\\'.toUInt8] := passes_byte rfl (Or.inr (Or.inl rfl))
  have hnext : Passes ⟨d, true, true⟩ ⟨d, true, false⟩ [c] := passes_byte rfl (Or.inr (Or.inl rfl))
  exact hslash.cons hnext

/-- A literal leaves the scan where it was. -/
theorem neutral_literal (ps : List Lib.Json.Piece) : Neutral (Lib.Json.literal ps) := by
  intro d hd
  have hpiece : ∀ p : Lib.Json.Piece, Passes ⟨d, true, false⟩ ⟨d, true, false⟩ p.bytes := by
    intro p
    cases p with
    | raw c h => exact passes_inside_all (Lib.Json.raw_bytes h)
    | short e h => exact passes_escape e.1
    | unit a b c d =>
      refine (passes_escape 0x75).append (passes_inside_all fun x hx => ?_)
      simp only [List.mem_cons, List.not_mem_nil, or_false] at hx
      rcases hx with rfl | rfl | rfl | rfl
      · exact ⟨a.byte_ne.1, a.byte_ne.2.1⟩
      · exact ⟨b.byte_ne.1, b.byte_ne.2.1⟩
      · exact ⟨c.byte_ne.1, c.byte_ne.2.1⟩
      · exact ⟨d.byte_ne.1, d.byte_ne.2.1⟩
  have hpieces : Passes ⟨d, true, false⟩ ⟨d, true, false⟩ (ps.flatMap Lib.Json.Piece.bytes) := by
    induction ps with
    | nil => exact Passes.nil
    | cons p ps ih =>
      rw [List.flatMap_cons]
      exact (hpiece p).append ih
  have hopen : Passes ⟨d, false, false⟩ ⟨d, true, false⟩ ['"'.toUInt8] := passes_byte rfl (Or.inl (by decide))
  have hclose : Passes ⟨d, true, false⟩ ⟨d, false, false⟩ ['"'.toUInt8] := passes_byte rfl (Or.inl (by decide))
  exact hopen.cons (hpieces.append hclose)

/-! ### JSON texts -/

/-- **A JSON text** leaves the scan where it was. -/
theorem neutral_text {p : Lib.Json.Part} {n : Nat} (h : Lib.Json.Text p n x) : Neutral x := by
  refine Lib.Json.Text.of_closed (fun x y hx hy => hx.append hy) (fun w hw => ?_) (fun x hx => ?_)
    (fun w hw => ?_) neutral_literal (neutral_byte (by decide)) (neutral_byte (by decide))
    (fun obj x hx => ?_) h
  · have hquiet : ∀ w ∈ Lib.Json.words, ∀ c ∈ w, Quiet c := by decide +kernel
    exact neutral_quiet (hquiet w hw)
  · have hdigit : ∀ c : UInt8, 0x30 ≤ c ∧ c ≤ 0x39 → Quiet c := Lib.forall_uint8 (by decide +kernel)
    have hmark : ∀ c ∈ [0x2b, 0x2d, 0x2e, 0x45, 0x65], Quiet c := by decide +kernel
    exact neutral_quiet fun c hc => (hx.bytes c hc).elim (hdigit c) (hmark c)
  · refine neutral_quiet fun c hc => ?_
    rcases hw c hc with rfl | rfl | rfl | rfl <;> decide
  · cases obj with
    | true => exact neutral_braces hx
    | false =>
      have hopen : Neutral [Lib.Json.opening false] := neutral_byte (by decide)
      have hclose : Neutral [Lib.Json.closing false] := neutral_byte (by decide)
      exact hopen.append (hx.append hclose)

/-- **An object** is as long as the scan says, whatever follows it. -/
theorem objectLength_value (h : Lib.Json.IsValue x) (hhead : x.head? = some '\x7b'.toUInt8) (rest : Bytes) :
    objectLength (x ++ rest) ⟨0, false, false⟩ = some x.length := by
  have hbody : ∃ body, x = '\x7b'.toUInt8 :: (body ++ ['\x7d'.toUInt8]) ∧ Neutral body := by
    obtain ⟨n, h⟩ := h
    unfold Lib.Json.Value at h
    cases h with
    | word hw =>
      have hheads : ∀ w ∈ Lib.Json.words, w.head? ≠ some '\x7b'.toUInt8 := by decide
      exact absurd hhead (hheads x hw)
    | number hx =>
      obtain ⟨c, t, rfl, rfl | ⟨-, hle⟩⟩ := hx.head
      · exact absurd (Option.some.inj hhead) (by decide)
      · rw [Option.some.inj hhead] at hle
        exact absurd hle (by decide)
    | string ps => exact absurd (Option.some.inj hhead) (by decide)
    | empty obj hw =>
      have hobj : obj = true := by
        cases obj with
        | true => rfl
        | false => exact absurd (Option.some.inj hhead) (by decide)
      subst hobj
      refine ⟨_, rfl, neutral_quiet fun c hc => ?_⟩
      rcases hw c hc with rfl | rfl | rfl | rfl <;> decide
    | @items _ _ obj hes =>
      have hobj : obj = true := by
        cases obj with
        | true => rfl
        | false => exact absurd (Option.some.inj hhead) (by decide)
      subst hobj
      exact ⟨_, rfl, neutral_text hes⟩
  obtain ⟨body, rfl, hneutral⟩ := hbody
  have hopen : Passes ⟨0, false, false⟩ ⟨1, false, false⟩ ['\x7b'.toUInt8] := passes_byte rfl (Or.inl (by decide))
  obtain ⟨hnone, hfold⟩ := hopen.cons (hneutral 1 Nat.one_pos)
  have hcat : '\x7b'.toUInt8 :: (body ++ ['\x7d'.toUInt8]) ++ rest =
      '\x7b'.toUInt8 :: body ++ '\x7d'.toUInt8 :: rest := by simp
  rw [hcat, objectLength_append hnone, hfold, objectLength, if_pos ⟨rfl, rfl, rfl⟩]
  show some _ = some _
  simp only [List.length_cons, List.length_append, List.length_nil]
  congr 1
  omega

/-! ### The objects of an array -/

variable {σ : Type}

theorem isspace_of_space {w : Bytes} (hw : Lib.Json.Space w) : ∀ c ∈ w, isspace c = true := by
  intro c hc
  rcases hw c hc with rfl | rfl | rfl | rfl <;> decide

theorem isspace_of_lt : ∀ c : UInt8, 0x20 < c → isspace c = false := Lib.forall_uint8 (by decide +kernel)

/-- The text that an object is visited in. -/
def Cursor.object (c : Cursor) : Bytes := c.text.take c.left

/-- The place behind an object that another one follows. -/
theorem nextEntry_comma {w : Bytes} (hw : Lib.Json.Space w) (s : Bytes) :
    nextEntry (w ++ ','.toUInt8 :: s) = s := by
  unfold nextEntry
  rw [dropWhile_spaces (isspace_of_space hw) (by decide)]
  exact if_pos rfl

/-- The place behind the last object. -/
theorem nextEntry_bracket {w : Bytes} (hw : Lib.Json.Space w) (s : Bytes) :
    nextEntry (w ++ ']'.toUInt8 :: s) = ']'.toUInt8 :: s := by
  unfold nextEntry
  rw [dropWhile_spaces (isspace_of_space hw) (by decide)]
  exact if_neg fun h => absurd (Option.some.inj h) (by decide)

/-- Something else than an object is refused. -/
theorem entriesLoop_other {fn : Cursor → σ → Option σ} {e : Lib.Json.Element} (he : e.WellFormed)
    (hother : e.isObject = false) (rest : Bytes) (fuel : Nat) (ud : σ) :
    entriesLoop fn fuel (e.front ++ (e.value ++ rest)) ud = none := by
  have hbracket := he.value.head_ne_closing
  obtain ⟨c, t, hv, hc⟩ := he.value.head
  have hbrace : c ≠ '\x7b'.toUInt8 := by
    rintro rfl
    have hobject : e.isObject = true := by
      unfold Lib.Json.Element.isObject
      rw [hv]
      rfl
    exact absurd (hother.symm.trans hobject) (by simp)
  have hclose : c ≠ ']'.toUInt8 := by
    rintro rfl
    exact hbracket (by rw [hv]; rfl)
  have hspace : isspace c = false := isspace_of_lt c hc
  cases fuel with
  | zero => rfl
  | succ fuel =>
    rw [entriesLoop, if_neg (by simp [hv]), hv, List.cons_append,
      dropWhile_spaces (isspace_of_space he.front) hspace]
    dsimp only
    rw [if_neg hclose, if_pos hbrace]

/-- **The objects of an array** are visited one by one, up to something that is no object. -/
theorem entriesLoop_row {es : List Lib.Json.Element} (hes : ∀ e ∈ es, e.WellFormed) (hne : es ≠ [])
    (tail : Bytes) :
    ∃ cs : List Cursor, (∀ c ∈ cs, ∃ e ∈ es, ∃ rest, c = ⟨e.value ++ rest, e.value.length⟩) ∧
      cs.map Cursor.object = (es.takeWhile Lib.Json.Element.isObject).map Lib.Json.Element.value ∧
      ∀ {σ : Type} (fn : Cursor → σ → Option σ) (fuel : Nat) (ud : σ), es.length < fuel →
        entriesLoop fn fuel (Lib.Json.row (es.map Lib.Json.Element.text) ++ ']'.toUInt8 :: tail) ud =
          (cs.foldlM (fun ud c => fn c ud) ud).bind fun ud =>
            if es.all Lib.Json.Element.isObject then some ud else none := by
  induction es with
  | nil => exact absurd rfl hne
  | cons e es ih =>
    have he := hes e List.mem_cons_self
    -- what follows the element
    obtain ⟨rest, hrow⟩ : ∃ rest, Lib.Json.row ((e :: es).map Lib.Json.Element.text) ++ ']'.toUInt8 :: tail =
        e.front ++ (e.value ++ rest) := by
      cases es with
      | nil => exact ⟨_, Lib.Json.row_last e tail⟩
      | cons e' es => exact ⟨_, Lib.Json.row_more e e' es tail⟩
    cases hobj : e.isObject with
    | false =>
      refine ⟨[], fun c hc => absurd hc List.not_mem_nil, ?_, ?_⟩
      · rw [List.takeWhile_cons, hobj]
        rfl
      · intro σ fn fuel ud hfuel
        rw [hrow, entriesLoop_other he hobj, List.all_cons, hobj]
        rfl
    | true =>
      have hhead : e.value.head? = some '\x7b'.toUInt8 := beq_iff_eq.mp hobj
      have hlen := objectLength_value he.value hhead
      have hobject : ∀ rest, (⟨e.value ++ rest, e.value.length⟩ : Cursor).object = e.value :=
        fun rest => List.take_left
      cases es with
      | nil =>
        refine ⟨[⟨e.value ++ (e.after ++ ']'.toUInt8 :: tail), e.value.length⟩], ?_, ?_, ?_⟩
        · intro c hc
          exact ⟨e, List.mem_singleton_self e, _, List.mem_singleton.mp hc⟩
        · rw [List.takeWhile_cons, hobj]
          exact congrArg (· :: []) (hobject _)
        · intro σ fn fuel ud hfuel
          obtain ⟨fuel, rfl⟩ : ∃ k, fuel = k + 2 := ⟨fuel - 2, by rw [List.length_singleton] at hfuel; omega⟩
          have hlast : Lib.Json.row ([e].map Lib.Json.Element.text) ++ ']'.toUInt8 :: tail =
              e.front ++ (e.value ++ (e.after ++ ']'.toUInt8 :: tail)) := Lib.Json.row_last e tail
          have hall : [e].all Lib.Json.Element.isObject = true := by rw [List.all_cons, hobj]; rfl
          rw [hlast, entriesLoop_object hhead (hlen _) (by simp) (isspace_of_space he.front),
            nextEntry_bracket he.after, List.foldlM_cons, hall]
          show _ = ((fn _ ud).bind fun ud => some ud).bind some
          have hclose : (fun ud => entriesLoop fn (fuel + 1) (']'.toUInt8 :: tail) ud) = some := by
            funext ud
            exact entriesLoop_close (w := []) (fun c hc => absurd hc List.not_mem_nil) fuel tail ud
          rw [hclose, Option.bind_fun_some, Option.bind_fun_some]
      | cons e' es =>
        obtain ⟨cs, hcs, hmap, hloop⟩ := ih (fun x hx => hes x (List.mem_cons_of_mem e hx)) (List.cons_ne_nil _ _)
        refine ⟨⟨e.value ++ (e.after ++ ','.toUInt8 ::
          (Lib.Json.row ((e' :: es).map Lib.Json.Element.text) ++ ']'.toUInt8 :: tail)), e.value.length⟩ :: cs,
          ?_, ?_, ?_⟩
        · intro c hc
          rcases List.mem_cons.mp hc with rfl | hc
          · exact ⟨e, List.mem_cons_self, _, rfl⟩
          · obtain ⟨x, hx, hcx⟩ := hcs c hc
            exact ⟨x, List.mem_cons_of_mem e hx, hcx⟩
        · rw [List.takeWhile_cons, hobj, List.map_cons, hobject, hmap]
          rfl
        · intro σ fn fuel ud hfuel
          obtain ⟨fuel, rfl⟩ : ∃ k, fuel = k + 1 := ⟨fuel - 1, by rw [List.length_cons] at hfuel; omega⟩
          have hmore : Lib.Json.row ((e :: e' :: es).map Lib.Json.Element.text) ++ ']'.toUInt8 :: tail =
              e.front ++ (e.value ++ (e.after ++ ','.toUInt8 ::
                (Lib.Json.row ((e' :: es).map Lib.Json.Element.text) ++ ']'.toUInt8 :: tail))) :=
            Lib.Json.row_more e e' es tail
          have hall : (e :: e' :: es).all Lib.Json.Element.isObject =
              (e' :: es).all Lib.Json.Element.isObject := by
            rw [List.all_cons, hobj]
            rfl
          rw [hmore, entriesLoop_object hhead (hlen _) (by simp) (isspace_of_space he.front),
            nextEntry_comma he.after, List.foldlM_cons, hall]
          show _ = ((fn _ ud).bind fun ud => cs.foldlM _ ud).bind _
          rw [Option.bind_assoc]
          refine congrArg (Option.bind _) (funext fun ud => ?_)
          exact hloop fn fuel ud (by rw [List.length_cons] at hfuel; omega)

/-! ### The loops end -/

/-- One round of the loop of `flash_moe_for_each_entry`. -/
def entriesRound (fn : Cursor → σ → Option σ) : Bytes × σ → Option σ ⊕ (Bytes × σ)
  | (s, ud) =>
    if s = [] then .inl none
    else
      match s.dropWhile isspace with
      | []     => .inl (some ud)
      | c :: t =>
        if c = ']'.toUInt8 then .inl (some ud)
        else if c ≠ '\x7b'.toUInt8 then .inl none
        else
          match objectLength (c :: t) ⟨0, false, false⟩ with
          | none   => .inl none
          | some n =>
            match fn ⟨c :: t, n⟩ ud with
            | none    => .inl none
            | some ud =>
              if (c :: t).drop n = [] then .inl none else .inr (nextEntry ((c :: t).drop n), ud)

/-- One round of the loop of `flash_moe_find_key`. -/
def findKeyRound (pat : Bytes) (p : Cursor) : Option Cursor ⊕ Cursor :=
  if p.left < pat.length then .inl none
  else
    match strstr p.text pat with
    | none   => .inl none
    | some i =>
      if p.left < i + pat.length then .inl none
      else
        let q := (p.drop (i + pat.length)).skipSpace
        if q.head? = some ':'.toUInt8 then .inl (some (q.drop 1)) else .inr (p.drop (i + 1))

/-- An object is not empty. -/
theorem objectLength_pos {s : Bytes} {n : Nat} (h : objectLength s st = some n) : 0 < n := by
  cases s with
  | nil => exact absurd h (by simp [objectLength])
  | cons c s =>
    rw [objectLength] at h
    split at h
    · exact Option.some.inj h ▸ Nat.one_pos
    · obtain ⟨k, -, rfl⟩ := Option.map_eq_some_iff.mp h
      exact Nat.succ_pos k

theorem nextEntry_length_le (s : Bytes) : (nextEntry s).length ≤ s.length := by
  have hle := (List.dropWhile_suffix (l := s) isspace).length_le
  unfold nextEntry
  split
  · rw [List.length_tail]
    omega
  · exact hle

/-- A round of the list of entries leaves a shorter text. -/
theorem entriesRound_length {fn : Cursor → σ → Option σ} {a a' : Bytes × σ}
    (h : entriesRound fn a = .inr a') : a'.1.length < a.1.length := by
  rcases a with ⟨s, ud⟩
  unfold entriesRound at h
  dsimp only at h
  have hdrop := (List.dropWhile_suffix (l := s) isspace).length_le
  split at h
  · exact absurd h (by simp)
  split at h
  · exact absurd h (by simp)
  rename_i c t hct
  split at h
  · exact absurd h (by simp)
  split at h
  · exact absurd h (by simp)
  split at h
  · exact absurd h (by simp)
  rename_i n hn
  split at h
  · exact absurd h (by simp)
  split at h
  · exact absurd h (by simp)
  -- the object is not empty, so what is behind it is shorter
  · obtain rfl := Sum.inr.inj h
    have hpos := objectLength_pos hn
    have hle := nextEntry_length_le ((c :: t).drop n)
    rw [hct] at hdrop
    rw [List.length_drop] at hle
    have hlen : (c :: t).length = t.length + 1 := List.length_cons
    show (nextEntry ((c :: t).drop n)).length < s.length
    omega

/-- **The list of entries** ends on every text, with what the model's loop gives. -/
theorem entriesLoop_ends (fn : Cursor → σ → Option σ) (s : Bytes) (ud : σ) :
    ∃ r, Ends (entriesRound fn) (s, ud) r ∧ ∀ fuel, s.length < fuel → entriesLoop fn fuel s ud = r := by
  have hless : ∀ a a', entriesRound fn a = .inr a' → a'.1.length < a.1.length :=
    fun a a' h => entriesRound_length h
  obtain ⟨r, hr⟩ := Lib.ends_of_measure hless (s, ud)
  have hround : ∀ (n : Nat) (a : Bytes × σ), entriesLoop fn (n + 1) a.1 a.2 =
      match entriesRound fn a with
      | .inl b => b
      | .inr a => entriesLoop fn n a.1 a.2 := by
    rintro n ⟨s, ud⟩
    show entriesLoop fn (n + 1) s ud = _
    rw [entriesLoop]
    unfold entriesRound
    dsimp only
    split
    · rfl
    cases s.dropWhile isspace with
    | nil => rfl
    | cons c t =>
      dsimp only
      split
      · rfl
      split
      · rfl
      cases objectLength (c :: t) ⟨0, false, false⟩ with
      | none => rfl
      | some k =>
        dsimp only
        cases fn ⟨c :: t, k⟩ ud with
        | none => rfl
        | some ud =>
          dsimp only
          split <;> rfl
  refine ⟨r, hr, fun fuel hfuel => ?_⟩
  exact hr.fuelled hless (fun n a => entriesLoop fn n a.1 a.2) (fun n a b h => by rw [hround, h])
    (fun n a a' h => by rw [hround, h]) hfuel

/-- A round of the search for a key leaves a shorter text. -/
theorem findKeyRound_left {pat : Bytes} (hpat : pat ≠ []) {p p' : Cursor}
    (h : findKeyRound pat p = .inr p') : p'.left < p.left := by
  have hpos := List.length_pos_iff.mpr hpat
  unfold findKeyRound at h
  split at h
  · exact absurd h (by simp)
  split at h
  · exact absurd h (by simp)
  split at h
  · exact absurd h (by simp)
  dsimp only at h
  split at h
  · exact absurd h (by simp)
  · obtain rfl := Sum.inr.inj h
    show p.left - _ < p.left
    omega

/-- **The search for a key** ends on every text, with what the model's loop gives. -/
theorem findKeyLoop_ends {pat : Bytes} (hpat : pat ≠ []) (p : Cursor) :
    ∃ r, Ends (findKeyRound pat) p r ∧ ∀ fuel, p.left < fuel → findKeyLoop pat fuel p = r := by
  have hless : ∀ q q', findKeyRound pat q = .inr q' → q'.left < q.left :=
    fun q q' h => findKeyRound_left hpat h
  obtain ⟨r, hr⟩ := Lib.ends_of_measure hless p
  have hround : ∀ (n : Nat) (p : Cursor), findKeyLoop pat (n + 1) p =
      match findKeyRound pat p with
      | .inl b => b
      | .inr p => findKeyLoop pat n p := by
    intro n p
    rw [findKeyLoop]
    unfold findKeyRound
    split
    · rfl
    cases strstr p.text pat with
    | none => rfl
    | some i =>
      dsimp only
      split
      · rfl
      split <;> rfl
  refine ⟨r, hr, fun fuel hfuel => ?_⟩
  exact hr.fuelled hless (findKeyLoop pat) (fun n a b h => by rw [hround, h])
    (fun n a a' h => by rw [hround, h]) hfuel

end DS4.FlashMoe
