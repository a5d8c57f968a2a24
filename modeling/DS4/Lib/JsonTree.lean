import DS4.Lib.JsonText

namespace DS4.Lib.Json

/-!
# JSON objects and arrays by their items

* `Text.of_closed` — what holds of the pieces of a text, and is kept when texts are put together,
  holds of the text.
* `Member`, `Element` — the items of objects and of arrays, with the white space around them.
* `IsObject`, `IsArray` — the text of an object and its members, of an array and its elements;
  `exists_members`, `exists_elements` — **every text** of an object or of an array has some;
  `IsObject.isValue`, `IsArray.isValue` — and it is a value.
* `Picks` — the member that a parser gives for a name, the last one.
-/

variable {n : Nat} {obj : Bool} {p : Part} {x v : List UInt8}

/-! ### Texts -/

/-- A value of any depth. -/
def IsValue (v : List UInt8) : Prop := ∃ n, Value n v

/-- **What its pieces have** and putting together keeps, a text has. -/
theorem Text.of_closed {P : List UInt8 → Prop} (happend : ∀ x y, P x → P y → P (x ++ y))
    (hword : ∀ w ∈ words, P w) (hnumber : ∀ x, Number x → P x) (hspace : ∀ w, Space w → P w)
    (hliteral : ∀ ps, P (literal ps)) (hcomma : P [0x2c]) (hcolon : P [0x3a])
    (hbrackets : ∀ obj x, P x → P (opening obj :: (x ++ [closing obj])))
    (h : Text p n x) : P x := by
  have hkey : ∀ {obj k}, Key obj k → P k := by
    intro obj k hk
    cases hk with
    | element hw => exact hspace _ hw
    | member ps hw hw' hw'' =>
      have htail := happend _ _ hcolon (hspace _ hw'')
      exact happend _ _ (hspace _ hw) (happend _ _ (hliteral ps) (happend _ _ (hspace _ hw') htail))
  induction h with
  | word hw => exact hword _ hw
  | number hx => exact hnumber _ hx
  | string ps => exact hliteral ps
  | empty obj hw => exact hbrackets obj _ (hspace _ hw)
  | items hes ih => exact hbrackets _ _ ih
  | last hk hv hw ih => exact happend _ _ (hkey hk) (happend _ _ ih (hspace _ hw))
  | more hk hv hw hes ihv ihes =>
    have htail := happend _ _ hcomma ihes
    exact happend _ _ (hkey hk) (happend _ _ ihv (happend _ _ (hspace _ hw) htail))

/-! ### Items -/

/-- Texts with commas between them. -/
def row : List (List UInt8) → List UInt8
  | []           => []
  | [x]          => x
  | x :: y :: xs => x ++ 0x2c :: row (y :: xs)

/-- A member of an object, with the white space around its parts. -/
structure Member where
  front : List UInt8
  name : List Piece
  mid : List UInt8
  back : List UInt8
  value : List UInt8
  after : List UInt8

namespace Member

/-- What stands before the value. -/
def key (m : Member) : List UInt8 := m.front ++ (literal m.name ++ (m.mid ++ 0x3a :: m.back))

def text (m : Member) : List UInt8 := m.key ++ (m.value ++ m.after)

structure WellFormed (m : Member) : Prop where
  front : Space m.front
  mid : Space m.mid
  back : Space m.back
  value : IsValue m.value
  after : Space m.after

end Member

/-- An element of an array, with the white space around it. -/
structure Element where
  front : List UInt8
  value : List UInt8
  after : List UInt8

namespace Element

def text (e : Element) : List UInt8 := e.front ++ (e.value ++ e.after)

structure WellFormed (e : Element) : Prop where
  front : Space e.front
  value : IsValue e.value
  after : Space e.after

/-- The element is an object. -/
def isObject (e : Element) : Bool := e.value.head? == some (opening true)

end Element

/-- The last element of an array, and what is behind it. -/
theorem row_last (e : Element) (z : List UInt8) :
    row ([e].map Element.text) ++ 0x5d :: z = e.front ++ (e.value ++ (e.after ++ 0x5d :: z)) := by
  show e.front ++ (e.value ++ e.after) ++ _ = _
  simp only [List.append_assoc]

/-- An element of an array that others follow. -/
theorem row_more (e e' : Element) (es : List Element) (z : List UInt8) :
    row ((e :: e' :: es).map Element.text) ++ 0x5d :: z =
      e.front ++ (e.value ++ (e.after ++ 0x2c :: (row ((e' :: es).map Element.text) ++ 0x5d :: z))) := by
  show (e.front ++ (e.value ++ e.after)) ++ 0x2c :: row ((e' :: es).map Element.text) ++ _ = _
  simp only [List.append_assoc, List.cons_append]

/-- A row is as long as it has items, if none is empty. -/
theorem length_le_row {xs : List (List UInt8)} (h : ∀ y ∈ xs, y ≠ []) : xs.length ≤ (row xs).length := by
  induction xs with
  | nil => exact Nat.le_refl _
  | cons y xs ih =>
    have hpos := List.length_pos_iff.mpr (h y List.mem_cons_self)
    have hrest := ih fun z hz => h z (List.mem_cons_of_mem y hz)
    cases xs with
    | nil => exact hpos
    | cons z xs =>
      rw [row, List.length_append, List.length_cons, List.length_cons (a := 0x2c)]
      omega

/-- `v` is an object, or an array, of these items. -/
def Brackets (obj : Bool) (v : List UInt8) (xs : List (List UInt8)) : Prop :=
  ∃ body, v = opening obj :: (body ++ [closing obj]) ∧ (xs = [] ∧ Space body ∨ xs ≠ [] ∧ body = row xs)

/-- `v` is an object with these members. -/
structure IsObject (v : List UInt8) (ms : List Member) : Prop where
  wellFormed : ∀ m ∈ ms, m.WellFormed
  brackets : Brackets true v (ms.map Member.text)

/-- `v` is an array with these elements. -/
structure IsArray (v : List UInt8) (es : List Element) : Prop where
  wellFormed : ∀ e ∈ es, e.WellFormed
  brackets : Brackets false v (es.map Element.text)

/-- `text` is a document of the value `v`, with white space before and behind it. -/
def IsDocument (text front v : List UInt8) : Prop :=
  ∃ after, text = front ++ (v ++ after) ∧ Space front ∧ Space after ∧ IsValue v

/-- The items of a text, each with what stands before and behind its value. -/
theorem exists_items (h : Text (.items obj) n x) :
    ∃ xs : List (List UInt8), xs ≠ [] ∧ x = row xs ∧
      ∀ y ∈ xs, ∃ k v w, Key obj k ∧ Value n v ∧ Space w ∧ y = k ++ (v ++ w) := by
  generalize hp : Part.items obj = p at h
  induction h with
  | word | number | string | empty | items => exact Part.noConfusion hp
  | last hk hv hw ih =>
    obtain rfl := Part.items.inj hp
    refine ⟨[_], List.cons_ne_nil _ _, rfl, fun y hy => ?_⟩
    exact ⟨_, _, _, hk, hv, hw, List.mem_singleton.mp hy⟩
  | @more _ _ k v w es hk hv hw hes ihv ihes =>
    obtain rfl := Part.items.inj hp
    obtain ⟨xs, hne, hrow, hitems⟩ := ihes rfl
    obtain ⟨x, xs, rfl⟩ := List.exists_cons_of_ne_nil hne
    refine ⟨(k ++ (v ++ w)) :: x :: xs, List.cons_ne_nil _ _, ?_, List.forall_mem_cons.mpr ⟨?_, hitems⟩⟩
    · rw [row, ← hrow, List.append_assoc, List.append_assoc]
    · exact ⟨k, v, w, hk, hv, hw, rfl⟩

/-- A number begins with a digit or with its sign. -/
theorem Number.head (h : Number x) : ∃ c t, x = c :: t ∧ (c = 0x2d ∨ 0x30 ≤ c ∧ c ≤ 0x39) := by
  obtain ⟨hminus, hint, -, -⟩ := h
  rcases hminus with rfl | rfl
  · rcases hint with rfl | ⟨⟨hne, hdigits⟩, -⟩
    · exact ⟨0x30, _, rfl, Or.inr ⟨by decide, by decide⟩⟩
    · obtain ⟨c, t, rfl⟩ := List.exists_cons_of_ne_nil hne
      exact ⟨c, _, rfl, Or.inr (hdigits c List.mem_cons_self)⟩
  · exact ⟨0x2d, _, rfl, Or.inl rfl⟩

/-- The bytes of a number: digits, signs, a point and an `e`. -/
theorem Number.bytes (h : Number x) :
    ∀ c ∈ x, (0x30 ≤ c ∧ c ≤ 0x39) ∨ c ∈ [0x2b, 0x2d, 0x2e, 0x45, 0x65] := by
  obtain ⟨hminus, hint, hfrac, hexp⟩ := h
  intro c hc
  rcases List.mem_append.mp hc with hc | hc
  · rcases hminus with rfl | rfl
    · exact absurd hc List.not_mem_nil
    · obtain rfl := List.mem_singleton.mp hc
      exact Or.inr (by decide)
  rcases List.mem_append.mp hc with hc | hc
  · rcases hint with rfl | ⟨⟨-, hdigits⟩, -⟩
    · obtain rfl := List.mem_singleton.mp hc
      exact Or.inl ⟨by decide, by decide⟩
    · exact Or.inl (hdigits c hc)
  rcases List.mem_append.mp hc with hc | hc
  · rcases hfrac with rfl | ⟨ds, ⟨-, hdigits⟩, rfl⟩
    · exact absurd hc List.not_mem_nil
    · rcases List.mem_cons.mp hc with rfl | hc
      · exact Or.inr (by decide)
      · exact Or.inl (hdigits c hc)
  · rcases hexp with rfl | ⟨e, sign, ds, he, hsign, ⟨-, hdigits⟩, rfl⟩
    · exact absurd hc List.not_mem_nil
    · rcases List.mem_cons.mp hc with rfl | hc
      · rcases he with rfl | rfl
        · exact Or.inr (by decide)
        · exact Or.inr (by decide)
      rcases List.mem_append.mp hc with hc | hc
      · rcases hsign with rfl | rfl | rfl
        · exact absurd hc List.not_mem_nil
        · obtain rfl := List.mem_singleton.mp hc
          exact Or.inr (by decide)
        · obtain rfl := List.mem_singleton.mp hc
          exact Or.inr (by decide)
      · exact Or.inl (hdigits c hc)

/-- **No value** has a zero byte. -/
theorem IsValue.zero_notMem (h : IsValue v) : (0 : UInt8) ∉ v := by
  obtain ⟨n, h⟩ := h
  refine Text.of_closed (P := fun x => (0 : UInt8) ∉ x) (fun x y hx hy => ?_) (by decide)
    (fun x hx hc => ?_) (fun w hw hc => ?_) zero_notMem_literal (by decide) (by decide)
    (fun obj x hx => ?_) h
  · rw [List.mem_append, not_or]
    exact ⟨hx, hy⟩
  · rcases hx.bytes 0 hc with ⟨hle, -⟩ | hmem
    · exact absurd hle (by decide)
    · exact absurd hmem (by decide)
  · rcases hw 0 hc with h | h | h | h <;> exact absurd h (by decide)
  · rw [List.mem_cons, List.mem_append, List.mem_singleton, not_or, not_or]
    cases obj
    · exact ⟨by decide, hx, by decide⟩
    · exact ⟨by decide, hx, by decide⟩

/-- The brackets differ from each other and from all that other values begin with. -/
theorem opening_ne (obj : Bool) : opening obj ≠ opening (!obj) ∧ opening obj ≠ 0x22 ∧ opening obj ≠ 0x2d ∧
    0x39 < opening obj ∧ ∀ w ∈ words, w.head? ≠ some (opening obj) := by
  cases obj <;> decide

/-- A word begins with a letter. -/
theorem words_head : ∀ w ∈ words, ∃ c t, w = c :: t ∧ 0x61 ≤ c ∧ c ≤ 0x7a := by
  intro w hw
  rcases List.mem_cons.mp hw with rfl | hw
  · exact ⟨_, _, rfl, by decide⟩
  rcases List.mem_cons.mp hw with rfl | hw
  · exact ⟨_, _, rfl, by decide⟩
  · obtain rfl := List.mem_singleton.mp hw
    exact ⟨_, _, rfl, by decide⟩

/-- The kinds of values. -/
theorem IsValue.kinds (h : IsValue v) :
    v ∈ words ∨ Number v ∨ (∃ ps, v = literal ps) ∨ ∃ obj, v.head? = some (opening obj) := by
  obtain ⟨n, h⟩ := h
  unfold Value at h
  cases h with
  | word hw => exact Or.inl hw
  | number hx => exact Or.inr (Or.inl hx)
  | string ps => exact Or.inr (Or.inr (Or.inl ⟨ps, rfl⟩))
  | empty obj hw => exact Or.inr (Or.inr (Or.inr ⟨obj, rfl⟩))
  | items hes => exact Or.inr (Or.inr (Or.inr ⟨_, rfl⟩))

/-- A value that begins with a digit or a sign is a number. -/
theorem IsValue.number (h : IsValue v) {c : UInt8} (hhead : v.head? = some c) (hc : 0x2d ≤ c ∧ c ≤ 0x39) :
    Number v := by
  rcases h.kinds with hw | hx | ⟨ps, rfl⟩ | ⟨obj, hobj⟩
  · obtain ⟨d, t, rfl, hd, -⟩ := words_head v hw
    obtain rfl := Option.some.inj hhead
    exact absurd (UInt8.le_trans hd hc.2) (by decide)
  · exact hx
  · obtain rfl := Option.some.inj hhead
    exact absurd hc (by decide)
  · obtain rfl := Option.some.inj (hobj.symm.trans hhead)
    cases obj <;> exact absurd hc (by decide)

/-- A value that begins with a letter is a word. -/
theorem IsValue.word (h : IsValue v) {c : UInt8} (hhead : v.head? = some c) (hc : 0x61 ≤ c ∧ c ≤ 0x7a) :
    v ∈ words := by
  rcases h.kinds with hw | hx | ⟨ps, rfl⟩ | ⟨obj, hobj⟩
  · exact hw
  · obtain ⟨d, t, rfl, hd⟩ := hx.head
    obtain rfl := Option.some.inj hhead
    rcases hd with rfl | ⟨-, hle⟩
    · exact absurd hc (by decide)
    · exact absurd (UInt8.le_trans hc.1 hle) (by decide)
  · obtain rfl := Option.some.inj hhead
    exact absurd hc (by decide)
  · obtain rfl := Option.some.inj (hobj.symm.trans hhead)
    cases obj <;> exact absurd hc (by decide)

/-- A value that begins with a quotation mark is a string. -/
theorem IsValue.string (h : IsValue v) (hhead : v.head? = some 0x22) : ∃ ps, v = literal ps := by
  rcases h.kinds with hw | hx | hps | ⟨obj, hobj⟩
  · have hall : ∀ w ∈ words, w.head? ≠ some 0x22 := by decide
    exact absurd hhead (hall v hw)
  · obtain ⟨d, t, rfl, hd⟩ := hx.head
    obtain rfl := Option.some.inj hhead
    exact absurd hd (by decide)
  · exact hps
  · have heq := Option.some.inj (hobj.symm.trans hhead)
    cases obj <;> exact absurd heq (by decide)

/-- A value does not begin with white space. -/
theorem IsValue.head (h : IsValue v) : ∃ c t, v = c :: t ∧ 0x20 < c := by
  rcases h.kinds with hw | hx | ⟨ps, rfl⟩ | ⟨obj, hobj⟩
  · obtain ⟨c, t, rfl, hc, -⟩ := words_head v hw
    exact ⟨c, t, rfl, UInt8.lt_of_lt_of_le (by decide) hc⟩
  · obtain ⟨c, t, rfl, rfl | ⟨hle, -⟩⟩ := hx.head
    · exact ⟨_, t, rfl, by decide⟩
    · exact ⟨c, t, rfl, UInt8.lt_of_lt_of_le (by decide) hle⟩
  · exact ⟨_, _, rfl, by decide⟩
  · obtain ⟨c, t, rfl⟩ : ∃ c t, v = c :: t := by
      cases v with
      | nil => exact absurd hobj (by simp)
      | cons c t => exact ⟨c, t, rfl⟩
    obtain rfl := Option.some.inj hobj
    refine ⟨_, t, rfl, ?_⟩
    cases obj <;> decide

/-- A value does not begin with a closing bracket. -/
theorem IsValue.head_ne_closing (h : IsValue v) : v.head? ≠ some (closing false) := by
  rcases h.kinds with hw | hx | ⟨ps, rfl⟩ | ⟨obj, hobj⟩
  · have hall : ∀ w ∈ words, w.head? ≠ some (closing false) := by decide
    exact hall v hw
  · obtain ⟨c, t, rfl, hc⟩ := hx.head
    intro hhead
    obtain rfl := Option.some.inj hhead
    exact absurd hc (by decide)
  · intro hhead
    exact absurd (Option.some.inj hhead) (by decide)
  · rw [hobj]
    cases obj <;> decide

/-- **A value** that begins with a bracket has items. -/
theorem brackets_of_head (h : IsValue v) (hhead : v.head? = some (opening obj)) :
    ∃ xs, Brackets obj v xs ∧
      ∀ y ∈ xs, ∃ k v w, Key obj k ∧ IsValue v ∧ Space w ∧ y = k ++ (v ++ w) := by
  obtain ⟨n, h⟩ := h
  obtain ⟨hother, hquote, hsign, hdigit, hwords⟩ := opening_ne obj
  have hsame : ∀ {o}, opening o = opening obj → o = obj := by
    intro o heq
    cases obj <;> cases o <;> first | rfl | exact absurd heq (by decide)
  unfold Value at h
  cases h with
  | word hw => exact absurd hhead (hwords _ hw)
  | number hx =>
    obtain ⟨c, t, rfl, rfl | ⟨-, hle⟩⟩ := hx.head
    · exact absurd (Option.some.inj hhead).symm hsign
    · rw [Option.some.inj hhead] at hle
      exact absurd hdigit (UInt8.not_lt.mpr hle)
  | string ps => exact absurd (Option.some.inj hhead).symm hquote
  | empty obj' hw =>
    obtain rfl := hsame (Option.some.inj hhead)
    exact ⟨[], ⟨_, rfl, Or.inl ⟨rfl, hw⟩⟩, fun y hy => absurd hy List.not_mem_nil⟩
  | items hes =>
    obtain rfl := hsame (Option.some.inj hhead)
    obtain ⟨xs, hne, hrow, hitems⟩ := exists_items hes
    refine ⟨xs, ⟨_, rfl, Or.inr ⟨hne, hrow⟩⟩, fun y hy => ?_⟩
    obtain ⟨k, v, w, hk, hv, hw, rfl⟩ := hitems y hy
    exact ⟨k, v, w, hk, ⟨_, hv⟩, hw, rfl⟩

/-- Items that are texts of something are the texts of a list. -/
theorem exists_map_of_forall {α : Type*} {f : α → List UInt8} {P : α → Prop} {xs : List (List UInt8)}
    (h : ∀ x ∈ xs, ∃ a, P a ∧ f a = x) : ∃ as : List α, (∀ a ∈ as, P a) ∧ as.map f = xs := by
  induction xs with
  | nil => exact ⟨[], fun a ha => absurd ha List.not_mem_nil, rfl⟩
  | cons x xs ih =>
    obtain ⟨a, ha, hx⟩ := h x List.mem_cons_self
    obtain ⟨as, has, hxs⟩ := ih fun y hy => h y (List.mem_cons_of_mem x hy)
    exact ⟨a :: as, List.forall_mem_cons.mpr ⟨ha, has⟩, by rw [List.map_cons, hx, hxs]⟩

/-- **Every object** has members. -/
theorem exists_members (h : IsValue v) (hhead : v.head? = some (opening true)) : ∃ ms, IsObject v ms := by
  obtain ⟨xs, hbrackets, hitems⟩ := brackets_of_head h hhead
  have hmembers : ∀ x ∈ xs, ∃ m : Member, m.WellFormed ∧ m.text = x := by
    intro x hx
    obtain ⟨k, v, w, hk, hv, hw, rfl⟩ := hitems x hx
    cases hk with
    | @member front mid back ps hfront hmid hback =>
      exact ⟨⟨front, ps, mid, back, v, w⟩, ⟨hfront, hmid, hback, hv, hw⟩, rfl⟩
  obtain ⟨ms, hms, rfl⟩ := exists_map_of_forall hmembers
  exact ⟨ms, hms, hbrackets⟩

/-- **Every array** has elements. -/
theorem exists_elements (h : IsValue v) (hhead : v.head? = some (opening false)) : ∃ es, IsArray v es := by
  obtain ⟨xs, hbrackets, hitems⟩ := brackets_of_head h hhead
  have helements : ∀ x ∈ xs, ∃ e : Element, e.WellFormed ∧ e.text = x := by
    intro x hx
    obtain ⟨k, v, w, hk, hv, hw, rfl⟩ := hitems x hx
    cases hk with
    | element hfront => exact ⟨⟨k, v, w⟩, ⟨hfront, hv, hw⟩, rfl⟩
  obtain ⟨es, hes, rfl⟩ := exists_map_of_forall helements
  exact ⟨es, hes, hbrackets⟩

/-- An element is not empty. -/
theorem Element.WellFormed.text_ne_nil {e : Element} (h : e.WellFormed) : e.text ≠ [] := by
  obtain ⟨c, t, hv, -⟩ := h.value.head
  unfold Element.text
  rw [hv]
  simp

theorem Text.mono {m : Nat} (h : Text p n x) (hle : n ≤ m) : Text p m x := by
  induction h generalizing m with
  | word hw => exact .word hw
  | number hx => exact .number hx
  | string ps => exact .string ps
  | empty obj hw =>
    obtain ⟨m, rfl⟩ : ∃ k, m = k + 1 := ⟨m - 1, by omega⟩
    exact .empty obj hw
  | items hes ih =>
    obtain ⟨m, rfl⟩ : ∃ k, m = k + 1 := ⟨m - 1, by omega⟩
    exact .items (ih (Nat.le_of_succ_le_succ hle))
  | last hk hv hw ih => exact .last hk (ih hle) hw
  | more hk hv hw hes ihv ihes => exact .more hk (ihv hle) hw (ihes hle)

/-- Items in a row are a text. -/
theorem exists_text {xs : List (List UInt8)} (hne : xs ≠ [])
    (h : ∀ y ∈ xs, ∃ k v w, Key obj k ∧ IsValue v ∧ Space w ∧ y = k ++ (v ++ w)) :
    ∃ n, Text (.items obj) n (row xs) := by
  induction xs with
  | nil => exact absurd rfl hne
  | cons y xs ih =>
    obtain ⟨k, v, w, hk, ⟨n, hv⟩, hw, rfl⟩ := h y List.mem_cons_self
    cases xs with
    | nil => exact ⟨n, .last hk hv hw⟩
    | cons z zs =>
      obtain ⟨n', hrow⟩ := ih (List.cons_ne_nil z zs) fun y hy => h y (List.mem_cons_of_mem _ hy)
      refine ⟨max n n', ?_⟩
      have htext : Text (.items obj) (max n n') (k ++ (v ++ (w ++ 0x2c :: row (z :: zs)))) :=
        .more hk (Text.mono hv (Nat.le_max_left _ _)) hw (hrow.mono (Nat.le_max_right _ _))
      rw [row, List.append_assoc, List.append_assoc]
      exact htext

theorem Brackets.isValue {xs : List (List UInt8)} (h : Brackets obj v xs)
    (hitems : ∀ y ∈ xs, ∃ k v w, Key obj k ∧ IsValue v ∧ Space w ∧ y = k ++ (v ++ w)) : IsValue v := by
  obtain ⟨body, rfl, ⟨-, hspace⟩ | ⟨hne, rfl⟩⟩ := h
  · exact ⟨1, .empty obj hspace⟩
  · obtain ⟨n, htext⟩ := exists_text hne hitems
    exact ⟨n + 1, .items htext⟩

/-- **An object** is a value. -/
theorem IsObject.isValue {ms : List Member} (h : IsObject v ms) : IsValue v := by
  refine h.brackets.isValue fun y hy => ?_
  obtain ⟨m, hm, rfl⟩ := List.mem_map.mp hy
  have hwf := h.wellFormed m hm
  exact ⟨m.key, m.value, m.after, .member m.name hwf.front hwf.mid hwf.back, hwf.value, hwf.after, rfl⟩

/-- **An array** is a value. -/
theorem IsArray.isValue {es : List Element} (h : IsArray v es) : IsValue v := by
  refine h.brackets.isValue fun y hy => ?_
  obtain ⟨e, he, rfl⟩ := List.mem_map.mp hy
  have hwf := h.wellFormed e he
  exact ⟨e.front, e.value, e.after, .element hwf.front, hwf.value, hwf.after, rfl⟩

/-! ### Places -/

/-- What stands behind an item: a comma, or the end of the row. -/
def rowRest : List (List UInt8) → List UInt8
  | []      => []
  | y :: ys => 0x2c :: row (y :: ys)

theorem row_append (xs : List (List UInt8)) (y : List UInt8) (ys : List (List UInt8)) :
    row (xs ++ y :: ys) = xs.flatMap (· ++ [0x2c]) ++ (y ++ rowRest ys) := by
  induction xs with
  | nil =>
    cases ys with
    | nil => exact (List.append_nil y).symm
    | cons z zs => rfl
  | cons x xs ih =>
    obtain ⟨z, zs, hz⟩ := List.exists_cons_of_ne_nil (show xs ++ y :: ys ≠ [] by simp)
    rw [List.cons_append, hz, row, ← hz, ih]
    simp

/-- Where the name of a member stands in the object. -/
def place (before : List Member) (m : Member) : Nat :=
  1 + ((before.map Member.text).flatMap (· ++ [0x2c])).length + m.front.length

/-- What ends an item. -/
def Stops (tail : List UInt8) : Prop := ∃ c t, tail = c :: t ∧ (c = 0x2c ∨ c = 0x7d ∨ c = 0x5d)

/-- **A member** at its place in the object. -/
theorem IsObject.at_place {before after : List Member} {m : Member}
    (h : IsObject v (before ++ m :: after)) :
    ∃ pre tail, v = pre ++ (literal m.name ++ (m.mid ++ 0x3a :: (m.back ++ (m.value ++ (m.after ++ tail))))) ∧
      pre.length = place before m ∧ Stops tail := by
  obtain ⟨-, body, rfl, ⟨hnil, -⟩ | ⟨-, rfl⟩⟩ := h
  · exact absurd hnil (by simp)
  rw [List.map_append, List.map_cons, row_append]
  refine ⟨opening true :: ((before.map Member.text).flatMap (· ++ [0x2c]) ++ m.front),
    rowRest (after.map Member.text) ++ [closing true], ?_, ?_, ?_⟩
  · simp [Member.text, Member.key]
  · rw [List.length_cons, List.length_append]
    unfold place
    omega
  · cases after with
    | nil => exact ⟨_, _, rfl, Or.inr (Or.inl rfl)⟩
    | cons a as => exact ⟨_, _, rfl, Or.inl rfl⟩

/-! ### Names -/

/-- The member has this name, given by its code points. -/
def Member.Named (m : Member) (name : List Nat) : Prop := decoded m.name = name

instance (m : Member) (name : List Nat) : Decidable (m.Named name) := inferInstanceAs (Decidable (_ = _))

/-- What a parser gives for a name: the last member of that name, with those before it. -/
def Picks (ms : List Member) (name : List Nat) (before : List Member) (m : Member) : Prop :=
  ∃ after, ms = before ++ m :: after ∧ m.Named name ∧ ∀ m' ∈ after, ¬ m'.Named name

/-- The object has no member of that name. -/
def Lacks (ms : List Member) (name : List Nat) : Prop := ∀ m ∈ ms, ¬ m.Named name

/-- **The last member** of a name, if there is one, is the only one that is picked. -/
theorem picks_or_lacks (ms : List Member) (name : List Nat) :
    (∃ before m, Picks ms name before m) ∨ Lacks ms name := by
  induction ms with
  | nil => exact Or.inr fun m hm => absurd hm List.not_mem_nil
  | cons m ms ih =>
    rcases ih with ⟨before, m', after, rfl, hnamed, hlast⟩ | hlacks
    · exact Or.inl ⟨m :: before, m', after, rfl, hnamed, hlast⟩
    · by_cases hm : m.Named name
      · exact Or.inl ⟨[], m, ms, rfl, hm, hlacks⟩
      · exact Or.inr (List.forall_mem_cons.mpr ⟨hm, hlacks⟩)

theorem Picks.unique {ms before before' : List Member} {m m' : Member} {name : List Nat}
    (h : Picks ms name before m) (h' : Picks ms name before' m') : before = before' ∧ m = m' := by
  obtain ⟨after, rfl, hnamed, hlast⟩ := h
  obtain ⟨after', heq, hnamed', hlast'⟩ := h'
  rcases List.append_eq_append_iff.mp heq with ⟨mid, rfl, hmid⟩ | ⟨mid, rfl, hmid⟩
  · cases mid with
    | nil =>
      obtain ⟨rfl, -⟩ := List.cons.inj hmid
      exact ⟨(List.append_nil _).symm, rfl⟩
    | cons a mid =>
      obtain ⟨-, rfl⟩ := List.cons.inj hmid
      exact absurd hnamed' (hlast m' (by simp))
  · cases mid with
    | nil =>
      obtain ⟨rfl, -⟩ := List.cons.inj hmid
      exact ⟨List.append_nil _, rfl⟩
    | cons a mid =>
      obtain ⟨-, rfl⟩ := List.cons.inj hmid
      exact absurd hnamed (hlast' m (by simp))

theorem Picks.not_lacks {ms before : List Member} {m : Member} {name : List Nat}
    (h : Picks ms name before m) : ¬ Lacks ms name := by
  obtain ⟨after, rfl, hnamed, -⟩ := h
  exact fun hlacks => hlacks m (by simp) hnamed

end DS4.Lib.Json
