import DS4.FlashMoe.ManifestScan

namespace DS4.FlashMoe

/-!
# Flash-MoE — keys of a JSON object

A key is found where it first stands in quotation marks with a colon behind it, at any depth.

* `Cursor.of` — a text in front of another one; what the scanner does there it does with the text.
* `KeyAt` — the text starts with the key and a colon.
* `findKeyLoop_first`, `findKeyLoop_none` — **the first place** of the key is found.
* `KeyFirst` — the key first stands where a parser finds its member; `KeyFirst.findKey_picks`,
  `KeyFirst.findKey_lacks` — then so does the scanner.
-/

open DS4.Server (Bytes lit cstr strstr isspace)

variable {s u rest pre post : Bytes} {key : String} {n : Nat}

/-! ### A text in front of another one -/

/-- The text `u` in front of `rest`. -/
def Cursor.of (u rest : Bytes) : Cursor := ⟨u ++ rest, u.length⟩

namespace Cursor

@[simp] theorem of_left (u rest : Bytes) : (of u rest).left = u.length := rfl

@[simp] theorem of_object (u rest : Bytes) : (of u rest).object = u := List.take_left

@[simp] theorem of_head (u rest : Bytes) : (of u rest).head? = u.head? := by
  cases u with
  | nil => rfl
  | cons c u => rfl

@[simp] theorem of_drop (h : n ≤ u.length) (rest : Bytes) : (of u rest).drop n = of (u.drop n) rest := by
  unfold of drop
  rw [List.drop_append_of_le_length h, List.length_drop]

@[simp] theorem of_skipSpace (u rest : Bytes) : (of u rest).skipSpace = of (u.dropWhile isspace) rest := by
  have htake : (of u rest).text.take (of u rest).left = u := List.take_left
  have hsplit : u.drop (u.takeWhile isspace).length = u.dropWhile isspace := by
    calc u.drop (u.takeWhile isspace).length
        = (u.takeWhile isspace ++ u.dropWhile isspace).drop (u.takeWhile isspace).length := by
          rw [List.takeWhile_append_dropWhile]
      _ = u.dropWhile isspace := List.drop_left
  have hlen : (u.takeWhile isspace).length ≤ u.length := ( List.takeWhile_prefix isspace).length_le
  unfold skipSpace
  rw [htake, of_drop hlen, hsplit]

end Cursor

/-! ### Keys -/

/-- The text starts with the key in quotation marks, and a colon follows. -/
def KeyAt (key : String) (s : Bytes) : Prop :=
  keyPat key <+: s ∧ ((s.drop (keyPat key).length).dropWhile isspace).head? = some ':'.toUInt8

instance (key : String) (s : Bytes) : Decidable (KeyAt key s) := inferInstanceAs (Decidable (_ ∧ _))

/-- What a round of the search does where it finds the text of the key. -/
theorem findKeyLoop_succ {i : Nat} (fuel : Nat) (hfind : strstr (s ++ rest) (keyPat key) = some i)
    (hi : i + (keyPat key).length ≤ s.length) :
    findKeyLoop (keyPat key) (fuel + 1) (.of s rest) =
      if KeyAt key (s.drop i) then
        some (.of (((s.drop (i + (keyPat key).length)).dropWhile isspace).drop 1) rest)
      else findKeyLoop (keyPat key) fuel (.of (s.drop (i + 1)) rest) := by
  have hpos : 0 < (keyPat key).length := Nat.succ_pos _
  have hprefix : keyPat key <+: s.drop i := by
    have hp : keyPat key <+: (s ++ rest).drop (0 + i) := DS4.Server.strstr_prefix hfind
    rw [Nat.zero_add] at hp
    exact Lib.prefix_drop_of_append hi hp
  have hiff : KeyAt key (s.drop i) ↔
      ((s.drop (i + (keyPat key).length)).dropWhile isspace).head? = some ':'.toUInt8 := by
    unfold KeyAt
    rw [List.drop_drop]
    exact and_iff_right hprefix
  rw [findKeyLoop, Cursor.of_left, if_neg (by omega)]
  have htext : (Cursor.of s rest).text = s ++ rest := rfl
  rw [htext, hfind]
  dsimp only
  rw [if_neg (by omega), Cursor.of_drop hi, Cursor.of_skipSpace, Cursor.of_head]
  by_cases hcolon : ((s.drop (i + (keyPat key).length)).dropWhile isspace).head? = some ':'.toUInt8
  · have hle : 1 ≤ ((s.drop (i + (keyPat key).length)).dropWhile isspace).length := by
      cases hd : (s.drop (i + (keyPat key).length)).dropWhile isspace with
      | nil => rw [hd] at hcolon; exact absurd hcolon (by simp)
      | cons c t => exact Nat.succ_pos _
    rw [if_pos hcolon, if_pos (hiff.mpr hcolon), Cursor.of_drop hle]
  · rw [if_neg hcolon, if_neg (fun h => hcolon (hiff.mp h)), Cursor.of_drop (by omega)]

/-- **No place of the key**: none is found. -/
theorem findKeyLoop_none (hno : ∀ i, ¬ KeyAt key (s.drop i)) (fuel : Nat) :
    findKeyLoop (keyPat key) fuel (.of s rest) = none := by
  induction fuel generalizing s with
  | zero => rfl
  | succ fuel ih =>
    by_cases hlen : s.length < (keyPat key).length
    · rw [findKeyLoop, Cursor.of_left, if_pos hlen]
    · cases hfind : strstr (s ++ rest) (keyPat key) with
      | none =>
        have htext : strstr (Cursor.of s rest).text (keyPat key) = none := hfind
        rw [findKeyLoop, Cursor.of_left, if_neg hlen, htext]
      | some i =>
        by_cases hi : s.length < i + (keyPat key).length
        · have htext : strstr (Cursor.of s rest).text (keyPat key) = some i := hfind
          rw [findKeyLoop, Cursor.of_left, if_neg hlen, htext]
          dsimp only
          rw [if_pos hi]
        · rw [findKeyLoop_succ fuel hfind (Nat.not_lt.mp hi), if_neg (hno i)]
          apply ih
          intro j
          rw [List.drop_drop]
          exact hno _

/-- The text of the key is found where it stands, or before. -/
theorem strstr_le (hnul : (0 : UInt8) ∉ s) (hat : keyPat key <+: s.drop n) (hn : n ≤ s.length) (rest : Bytes) :
    ∃ i ≤ n, strstr (s ++ rest) (keyPat key) = some i ∧ i + (keyPat key).length ≤ s.length := by
  have hcstr : cstr (s ++ rest) = s ++ cstr rest := by
    unfold cstr
    rw [List.takeWhile_append_of_pos]
    intro c hc
    exact decide_eq_true fun h => hnul (h ▸ hc)
  have hat' : keyPat key <+: (s ++ cstr rest).drop n := Lib.prefix_drop_append hn hat
  cases hfind : Lib.findSub (keyPat key) (s ++ cstr rest) with
  | none =>
    have hle : n ≤ (s ++ cstr rest).length := by
      rw [List.length_append]
      omega
    exact absurd hat' (Lib.findSub_eq_none_iff.mp hfind n hle)
  | some i =>
    obtain ⟨-, -, hfirst⟩ := Lib.findSub_eq_some_iff.mp hfind
    have hle : i ≤ n := Nat.not_lt.mp fun h => hfirst n h hat'
    have hlength := hat.length_le
    rw [List.length_drop] at hlength
    refine ⟨i, hle, ?_, by omega⟩
    unfold strstr
    rw [hcstr, hfind]

/-- **The first place** of the key is found. -/
theorem findKeyLoop_first {w : Bytes} (hs : s = pre ++ (keyPat key ++ (w ++ ':'.toUInt8 :: post)))
    (hnul : (0 : UInt8) ∉ s) (hw : ∀ c ∈ w, isspace c = true)
    (hfirst : ∀ i < pre.length, ¬ KeyAt key (s.drop i)) {fuel : Nat} (hfuel : pre.length < fuel) :
    findKeyLoop (keyPat key) fuel (.of s rest) = some (.of post rest) := by
  induction fuel generalizing s pre with
  | zero => exact absurd hfuel (Nat.not_lt_zero _)
  | succ fuel ih =>
    have hdrop : s.drop pre.length = keyPat key ++ (w ++ ':'.toUInt8 :: post) := by
      rw [hs, List.drop_left]
    have hbehind : (s.drop (pre.length + (keyPat key).length)).dropWhile isspace = ':'.toUInt8 :: post := by
      rw [← List.drop_drop, hdrop, List.drop_left]
      exact dropWhile_spaces hw (by decide) post
    have hlength : pre.length ≤ s.length := by
      rw [hs, List.length_append]
      exact Nat.le_add_right _ _
    obtain ⟨i, hi, hfind, hfit⟩ := strstr_le hnul (hdrop ▸ List.prefix_append _ _) hlength rest
    rw [findKeyLoop_succ fuel hfind hfit]
    rcases Nat.eq_or_lt_of_le hi with rfl | hlt
    · rw [if_pos, hbehind]
      · rfl
      · refine ⟨hdrop ▸ List.prefix_append _ _, ?_⟩
        rw [List.drop_drop, hbehind]
        rfl
    -- an earlier text of the key, without a colon
    · rw [if_neg (hfirst i hlt)]
      have hdropped : s.drop (i + 1) = pre.drop (i + 1) ++ (keyPat key ++ (w ++ ':'.toUInt8 :: post)) := by
        rw [hs, List.drop_append_of_le_length (by omega)]
      apply ih hdropped
      · exact fun h => hnul (List.mem_of_mem_drop h)
      · intro j hj
        rw [List.length_drop] at hj
        rw [List.drop_drop]
        exact hfirst _ (by omega)
      · rw [List.length_drop]
        omega

/-! ### Keys of an object -/

open DS4.Lib.Json (Member IsObject IsValue Picks Lacks place literal Stops)

/-- The code points of a key. -/
def codes (key : String) : List Nat := key.toList.map Char.toNat

/-- The key first stands where the member is that a parser picks, written without escapes, and
    nowhere if there is no such member. -/
structure KeyFirst (key : String) (o : Bytes) (ms : List Member) : Prop where
  raw : ∀ before m, Picks ms (codes key) before m → literal m.name = keyPat key
  first : ∀ before m, Picks ms (codes key) before m → ∀ i < place before m, ¬ KeyAt key (o.drop i)
  lacking : Lacks ms (codes key) → ∀ i ≤ o.length, ¬ KeyAt key (o.drop i)

variable {o : Bytes} {ms before : List Member} {m : Member}

/-- **The member** that a parser picks is found, … -/
theorem KeyFirst.findKey_picks (h : KeyFirst key o ms) (ho : IsObject o ms)
    (hp : Picks ms (codes key) before m) (rest : Bytes) :
    m.WellFormed ∧ ∃ tail, Stops tail ∧
      findKey (.of o rest) key = some (.of (m.back ++ (m.value ++ (m.after ++ tail))) rest) := by
  have hraw := h.raw before m hp
  have hfirst := h.first before m hp
  obtain ⟨after, rfl, -, -⟩ := hp
  have hm := ho.wellFormed m (by simp)
  obtain ⟨pre, tail, htext, hpre, htail⟩ := ho.at_place
  refine ⟨hm, tail, htail, ?_⟩
  rw [hraw] at htext
  rw [← hpre] at hfirst
  have hlen : pre.length ≤ o.length := by
    rw [htext, List.length_append]
    exact Nat.le_add_right _ _
  exact findKeyLoop_first htext ho.isValue.zero_notMem (isspace_of_space hm.mid) hfirst (Nat.lt_succ_of_le hlen)

/-- … and nothing if there is none. -/
theorem KeyFirst.findKey_lacks (h : KeyFirst key o ms) (hp : Lacks ms (codes key)) (rest : Bytes) :
    findKey (.of o rest) key = none := by
  apply findKeyLoop_none
  intro i
  by_cases hi : i ≤ o.length
  · exact h.lacking hp i hi
  -- behind the text there is nothing
  · rw [List.drop_eq_nil_of_le (Nat.le_of_lt (Nat.not_le.mp hi))]
    rintro ⟨hat, -⟩
    exact absurd (List.prefix_nil.mp hat) (List.cons_ne_nil _ _)

end DS4.FlashMoe
