import DS4.Lib.Bytes
import DS4.Lib.JsonText
import DS4.Server.Json
import Mathlib.Data.List.TakeWhile

namespace DS4.Server

/-!
# Server — numbers in JSON

`strtod` takes the longest number at the start of a text.  What it takes does not depend on what follows, as long as
that cannot be part of a number.

* `goesOn`, `Delimited` — the bytes that can continue a number, and a text that starts with none of them.
* `scanMantissa_cut`, `scanExponent_cut`, `scanUnsigned_cut` — a part of a number, in front of another text.
* `jsonSkipScalar_cut` — a number or a literal in front of another text.
* `jsonSkipScalar_of_number` — every number of RFC 8259 is read to its end.
-/

/-! ### Bytes of numbers -/

/-- The bytes that `strtod` may take after the first ones of a number. -/
def goesOn (c : UInt8) : Bool := nanChar c || c == '.'.toUInt8 || c == '('.toUInt8

/-- A text that does not continue a number. -/
def Delimited (r : Bytes) : Prop := ∀ c ∈ r.head?, goesOn c = false

/-- The bytes of a literal or a number. -/
def wordByte (c : UInt8) : Bool :=
  !isspace c && !(lit "\"[]\x7b\x7d:,").contains c

variable {s r a : Bytes} {c : UInt8} {p digit : UInt8 → Bool}

theorem delimited_nil : Delimited [] := fun _ hc => nomatch hc

/-- The classes of bytes that the proofs compare. -/
theorem byte_classes : ∀ c : UInt8,
    (isdigit c = true → goesOn c = true) ∧ (isxdigit c = true → goesOn c = true) ∧
      (goesOn c = true → wordByte c = true) ∧
      ('a'.toUInt8 ≤ tolower c ∧ tolower c ≤ 'z'.toUInt8 → goesOn c = true) ∧
      (wordByte c = true → isspace c = false) ∧ (wordByte (tolower c) = true → wordByte c = true) ∧
      (isdigit c = true ↔ 0x30 ≤ c ∧ c ≤ 0x39) :=
  Lib.forall_uint8 (by decide +kernel)

theorem goesOn_of_isdigit (c : UInt8) : isdigit c = true → goesOn c = true := (byte_classes c).1

theorem goesOn_of_isxdigit (c : UInt8) : isxdigit c = true → goesOn c = true := (byte_classes c).2.1

theorem wordByte_of_goesOn (c : UInt8) : goesOn c = true → wordByte c = true := (byte_classes c).2.2.1

theorem wordByte_of_isdigit (c : UInt8) (h : isdigit c = true) : wordByte c = true :=
  wordByte_of_goesOn c (goesOn_of_isdigit c h)

/-- A letter continues a number. -/
theorem goesOn_of_tolower (c : UInt8) : 'a'.toUInt8 ≤ tolower c ∧ tolower c ≤ 'z'.toUInt8 → goesOn c = true :=
  (byte_classes c).2.2.2.1

/-- Elements with `p`, in front of a text that does not start with one. -/
theorem dropWhile_append_stop (ha : ∀ c ∈ a, p c = true) (hr : ∀ c ∈ r.head?, p c = false) :
    (a ++ r).dropWhile p = r := by
  rw [List.dropWhile_append_of_pos ha]
  cases r with
  | nil => rfl
  | cons c r => exact List.dropWhile_cons_of_neg (by simp [hr c rfl])

theorem head?_of_delimited (hr : Delimited r) (hp : ∀ c, p c = true → goesOn c = true) :
    ∀ c ∈ r.head?, p c = false := by
  intro c hc
  by_contra hpc
  have hgo := hp c ((Bool.not_eq_false _).mp hpc)
  rw [hr c hc] at hgo
  exact absurd hgo (by decide)

/-! ### The parts of a number -/

/-- What the mantissa may not be followed by. -/
def MantissaEnds (digit : UInt8 → Bool) (r : Bytes) : Prop := ∀ c ∈ r.head?, digit c = false ∧ c ≠ '.'.toUInt8

theorem mantissaEnds_of_delimited (hr : Delimited r) (hdigit : ∀ c, digit c = true → goesOn c = true) :
    MantissaEnds digit r := by
  refine fun c hc => ⟨head?_of_delimited hr hdigit c hc, ?_⟩
  rintro rfl
  exact absurd (hr _ hc) (by decide)

/-- Digits without a point. -/
theorem scanMantissa_digits (ha : ∀ c ∈ a, digit c = true) (hne : a ≠ []) (hr : MantissaEnds digit r) :
    scanMantissa digit (a ++ r) = some r := by
  have hdrop : (a ++ r).dropWhile digit = r := dropWhile_append_stop ha fun c hc => (hr c hc).1
  have hlt : r.length < (a ++ r).length := by
    have := List.length_pos_iff.2 hne
    rw [List.length_append]
    omega
  unfold scanMantissa
  rw [hdrop]
  cases r with
  | nil => exact if_pos hlt
  | cons c r =>
    dsimp only
    rw [if_neg fun h => (hr c rfl).2 h.1, if_pos hlt]

/-- Digits with a point. -/
theorem scanMantissa_point {f : Bytes} (hpoint : digit '.'.toUInt8 = false) (ha : ∀ c ∈ a, digit c = true)
    (hf : ∀ c ∈ f, digit c = true) (hne : a ≠ [] ∨ f ≠ []) (hr : ∀ c ∈ r.head?, digit c = false) :
    scanMantissa digit (a ++ '.'.toUInt8 :: (f ++ r)) = some r := by
  have hdrop : (a ++ '.'.toUInt8 :: (f ++ r)).dropWhile digit = '.'.toUInt8 :: (f ++ r) :=
    dropWhile_append_stop ha fun c hc => by rw [← Option.some.inj hc]; exact hpoint
  have hdrop' : (f ++ r).dropWhile digit = r := dropWhile_append_stop hf hr
  unfold scanMantissa
  rw [hdrop]
  dsimp only
  rw [hdrop', if_pos]
  refine ⟨rfl, hne.imp (fun h => ?_) fun h => ?_⟩
  · have := List.length_pos_iff.2 h
    rw [List.length_append]
    omega
  · have := List.length_pos_iff.2 h
    rw [List.length_append]
    omega

/-- A mantissa is cut out of a text: its bytes, and what it is in front of another text. -/
theorem scanMantissa_cut (hpoint : digit '.'.toUInt8 = false) (h : scanMantissa digit s = some r) :
    ∃ a, s = a ++ r ∧ a ≠ [] ∧ (∀ c ∈ a, digit c = true ∨ c = '.'.toUInt8) ∧
      ∀ r', MantissaEnds digit r' → scanMantissa digit (a ++ r') = some r' := by
  have hsplit : s = s.takeWhile digit ++ s.dropWhile digit := List.takeWhile_append_dropWhile.symm
  have hi : ∀ c ∈ s.takeWhile digit, digit c = true := fun c hc => List.mem_takeWhile_imp hc
  have hdigits : (s.dropWhile digit).length < s.length → s.takeWhile digit ≠ [] := by
    intro hlt hnil
    rw [hnil, List.nil_append] at hsplit
    rw [← hsplit] at hlt
    omega
  unfold scanMantissa at h
  cases hd : s.dropWhile digit with
  | nil =>
    rw [hd] at h hsplit hdigits
    dsimp only at h
    split_ifs at h with hlt
    obtain rfl := Option.some.inj h
    exact ⟨s.takeWhile digit, hsplit, hdigits hlt, fun c hc => Or.inl (hi c hc),
      fun r' hr' => scanMantissa_digits hi (hdigits hlt) hr'⟩
  | cons d b =>
    rw [hd] at h hsplit hdigits
    dsimp only at h
    split_ifs at h with hdot hlt
    · obtain ⟨rfl, hlen⟩ := hdot
      obtain rfl := Option.some.inj h
      have hf : ∀ c ∈ b.takeWhile digit, digit c = true := fun c hc => List.mem_takeWhile_imp hc
      have hb : b = b.takeWhile digit ++ b.dropWhile digit := List.takeWhile_append_dropWhile.symm
      have hne : s.takeWhile digit ≠ [] ∨ b.takeWhile digit ≠ [] := by
        refine hlen.imp hdigits fun hlt hnil => ?_
        rw [hnil, List.nil_append] at hb
        rw [← hb] at hlt
        omega
      refine ⟨s.takeWhile digit ++ '.'.toUInt8 :: b.takeWhile digit, ?_, ?_, ?_, ?_⟩
      · rw [List.append_assoc, List.cons_append, ← hb]
        exact hsplit
      · exact List.append_ne_nil_of_right_ne_nil _ (List.cons_ne_nil _ _)
      · intro c hc
        rcases List.mem_append.1 hc with hc | hc
        · exact Or.inl (hi c hc)
        · exact (List.mem_cons.1 hc).symm.imp_left (hf c)
      · intro r' hr'
        rw [List.append_assoc, List.cons_append]
        exact scanMantissa_point hpoint hi hf hne fun c hc => (hr' c hc).1
    · obtain rfl := Option.some.inj h
      exact ⟨s.takeWhile digit, hsplit, hdigits hlt, fun c hc => Or.inl (hi c hc),
        fun r' hr' => scanMantissa_digits hi (hdigits hlt) hr'⟩

/-- The bytes of an exponent behind its mark. -/
def exponentByte (c : UInt8) : Bool := isdigit c || c == '+'.toUInt8 || c == '-'.toUInt8

/-- An exponent without its sign. -/
def skipSign (t : Bytes) : Bytes :=
  match t with
  | d :: u => if d = '+'.toUInt8 ∨ d = '-'.toUInt8 then u else t
  | []     => t

theorem scanExponent_cons {mark e : UInt8} (he : tolower e = mark) (t : Bytes) :
    scanExponent mark (e :: t) =
      if ((skipSign t).dropWhile isdigit).length < (skipSign t).length then (skipSign t).dropWhile isdigit
      else e :: t := by
  unfold scanExponent
  dsimp only
  rw [if_pos he]
  rfl

/-- What is skipped is a sign, or nothing. -/
theorem skipSign_split (t : Bytes) :
    ∃ sign, t = sign ++ skipSign t ∧ (sign = [] ∨ sign = ['+'.toUInt8] ∨ sign = ['-'.toUInt8]) := by
  unfold skipSign
  cases t with
  | nil => exact ⟨[], rfl, Or.inl rfl⟩
  | cons d u =>
    dsimp only
    split_ifs with hd
    · exact ⟨[d], rfl, Or.inr (by simpa using hd)⟩
    · exact ⟨[], rfl, Or.inl rfl⟩

/-- An exponent. -/
theorem scanExponent_digits {mark e : UInt8} {sign ds : Bytes} (he : tolower e = mark)
    (hsign : sign = [] ∨ sign = ['+'.toUInt8] ∨ sign = ['-'.toUInt8]) (hds : ∀ c ∈ ds, isdigit c = true)
    (hne : ds ≠ []) (hr : ∀ c ∈ r.head?, isdigit c = false) :
    scanExponent mark (e :: (sign ++ (ds ++ r))) = r := by
  have hdrop : (ds ++ r).dropWhile isdigit = r := dropWhile_append_stop hds hr
  have hlt : r.length < (ds ++ r).length := by
    have := List.length_pos_iff.2 hne
    rw [List.length_append]
    omega
  have hskip : skipSign (sign ++ (ds ++ r)) = ds ++ r := by
    rcases hsign with rfl | rfl | rfl
    · obtain ⟨d, ds', rfl⟩ := List.exists_cons_of_ne_nil hne
      have hd := hds d List.mem_cons_self
      refine if_neg ?_
      rintro (rfl | rfl)
      · exact absurd hd (by decide)
      · exact absurd hd (by decide)
    · rfl
    · rfl
  rw [scanExponent_cons he, hskip, hdrop, if_pos hlt]

/-- No exponent. -/
theorem scanExponent_none {mark : UInt8} (hmark : 'a'.toUInt8 ≤ mark ∧ mark ≤ 'z'.toUInt8) (hr : Delimited r) :
    scanExponent mark r = r := by
  unfold scanExponent
  cases r with
  | nil => rfl
  | cons c r =>
    dsimp only
    rw [if_neg]
    rintro rfl
    exact absurd (hr c rfl) (by rw [goesOn_of_tolower c hmark]; decide)

/-- An exponent is cut out of a text. -/
theorem scanExponent_cut {mark : UInt8} (hmark : 'a'.toUInt8 ≤ mark ∧ mark ≤ 'z'.toUInt8) (s : Bytes) :
    ∃ a, s = a ++ scanExponent mark s ∧
      (a = [] ∨ ∃ e t, a = e :: t ∧ tolower e = mark ∧ ∀ c ∈ t, exponentByte c = true) ∧
      ∀ r', Delimited r' → scanExponent mark (a ++ r') = r' := by
  have hempty : ∃ a, s = a ++ s ∧
      (a = [] ∨ ∃ e t, a = e :: t ∧ tolower e = mark ∧ ∀ c ∈ t, exponentByte c = true) ∧
      ∀ r', Delimited r' → scanExponent mark (a ++ r') = r' :=
    ⟨[], rfl, Or.inl rfl, fun r' hr' => scanExponent_none hmark hr'⟩
  -- an exponent with its sign
  have hexp : ∀ e sign u, tolower e = mark → (sign = [] ∨ sign = ['+'.toUInt8] ∨ sign = ['-'.toUInt8]) →
      (u.dropWhile isdigit).length < u.length → ∃ a, e :: (sign ++ u) = a ++ u.dropWhile isdigit ∧
        (a = [] ∨ ∃ e t, a = e :: t ∧ tolower e = mark ∧ ∀ c ∈ t, exponentByte c = true) ∧
        ∀ r', Delimited r' → scanExponent mark (a ++ r') = r' := by
    intro e sign u he hsign hlt
    have hu : u = u.takeWhile isdigit ++ u.dropWhile isdigit := List.takeWhile_append_dropWhile.symm
    have hds : ∀ c ∈ u.takeWhile isdigit, isdigit c = true := fun c hc => List.mem_takeWhile_imp hc
    refine ⟨e :: (sign ++ u.takeWhile isdigit), ?_, Or.inr ⟨e, _, rfl, he, ?_⟩, fun r' hr' => ?_⟩
    · rw [List.cons_append, List.append_assoc, ← hu]
    · intro c hc
      unfold exponentByte
      rcases List.mem_append.1 hc with hc | hc
      · rcases hsign with rfl | rfl | rfl
        · cases hc
        · rw [List.mem_singleton.1 hc]
          rfl
        · rw [List.mem_singleton.1 hc]
          rfl
      · rw [hds c hc]
        rfl
    · rw [List.cons_append, List.append_assoc]
      refine scanExponent_digits he hsign hds ?_ (head?_of_delimited hr' goesOn_of_isdigit)
      intro hnil
      rw [hnil, List.nil_append] at hu
      rw [← hu] at hlt
      omega
  cases s with
  | nil => exact hempty
  | cons e t =>
    by_cases he : tolower e = mark
    swap
    · rwa [show scanExponent mark (e :: t) = e :: t from if_neg he]
    obtain ⟨sign, ht, hsign⟩ := skipSign_split t
    rw [scanExponent_cons he]
    split_ifs with hlt
    · conv in (e :: t) => rw [ht]
      exact hexp e sign _ he hsign hlt
    · exact hempty

/-- The characters behind a `nan` are cut out of a text. -/
theorem scanNanChars_cut (s : Bytes) : ∃ a, s = a ++ scanNanChars s ∧ (∀ c ∈ a, wordByte c = true) ∧
    ∀ r', Delimited r' → scanNanChars (a ++ r') = r' := by
  have hnone : ∀ r', Delimited r' → scanNanChars r' = r' := by
    intro r' hr'
    unfold scanNanChars
    cases r' with
    | nil => rfl
    | cons c t =>
      have hc : c ≠ '('.toUInt8 := by
        rintro rfl
        exact absurd (hr' _ rfl) (by decide)
      dsimp only
      split
      · exact if_neg fun h => hc h.1
      · rfl
  unfold scanNanChars
  cases s with
  | nil => exact ⟨[], rfl, (fun _ hc => nomatch hc), hnone⟩
  | cons c t =>
    dsimp only
    cases hd : t.dropWhile nanChar with
    | nil => exact ⟨[], rfl, (fun _ hc => nomatch hc), hnone⟩
    | cons d u =>
      dsimp only
      split_ifs with hparens
      swap
      · exact ⟨[], rfl, (fun _ hc => nomatch hc), hnone⟩
      obtain ⟨rfl, rfl⟩ := hparens
      have ht : t = t.takeWhile nanChar ++ ')'.toUInt8 :: u := by
        rw [← hd]
        exact List.takeWhile_append_dropWhile.symm
      have hnan : ∀ c ∈ t.takeWhile nanChar, nanChar c = true := fun c hc => List.mem_takeWhile_imp hc
      refine ⟨'('.toUInt8 :: (t.takeWhile nanChar ++ [')'.toUInt8]), ?_, ?_, fun r' _ => ?_⟩
      · rw [List.cons_append, List.append_assoc, List.singleton_append, ← ht]
      · intro c hc
        rcases List.mem_cons.1 hc with rfl | hc
        · decide
        · rcases List.mem_append.1 hc with hc | hc
          · exact wordByte_of_goesOn c (by unfold goesOn; rw [hnan c hc]; rfl)
          · rw [List.mem_singleton.1 hc]
            decide
      · have hdrop : (t.takeWhile nanChar ++ ')'.toUInt8 :: r').dropWhile nanChar = ')'.toUInt8 :: r' :=
          dropWhile_append_stop hnan fun c hc => by rw [← Option.some.inj hc]; decide
        rw [List.cons_append, List.append_assoc, List.singleton_append]
        dsimp only
        rw [hdrop]
        exact if_pos ⟨rfl, rfl⟩

/-- A mantissa and an exponent. -/
def scanFloat (digit : UInt8 → Bool) (mark : UInt8) (s : Bytes) : Option Bytes :=
  (scanMantissa digit s).map (scanExponent mark)

theorem scanFloat_cut {mark : UInt8} (hpoint : digit '.'.toUInt8 = false)
    (hmark : 'a'.toUInt8 ≤ mark ∧ mark ≤ 'z'.toUInt8) (hdigit : ∀ c, digit c = true → goesOn c = true)
    (hends : ∀ c, tolower c = mark → digit c = false ∧ c ≠ '.'.toUInt8) (h : scanFloat digit mark s = some r) :
    ∃ a, s = a ++ r ∧ a ≠ [] ∧
      (∀ c ∈ a, digit c = true ∨ c = '.'.toUInt8 ∨ tolower c = mark ∨ exponentByte c = true) ∧
      (∀ c ∈ a.head?, digit c = true ∨ c = '.'.toUInt8) ∧
      ∀ r', Delimited r' → scanFloat digit mark (a ++ r') = some r' := by
  obtain ⟨t, ht, rfl⟩ := Option.map_eq_some_iff.1 h
  obtain ⟨m, rfl, hm, hmbytes, hmcut⟩ := scanMantissa_cut hpoint ht
  obtain ⟨e, hsplit, he, hecut⟩ := scanExponent_cut hmark t
  refine ⟨m ++ e, ?_, List.append_ne_nil_of_left_ne_nil hm e, ?_, ?_, fun r' hr' => ?_⟩
  · rw [List.append_assoc, ← hsplit]
  · intro c hc
    rcases List.mem_append.1 hc with hc | hc
    · exact (hmbytes c hc).imp_right Or.inl
    · rcases he with rfl | ⟨x, u, rfl, hx, hu⟩
      · cases hc
      · rcases List.mem_cons.1 hc with rfl | hc
        · exact Or.inr (Or.inr (Or.inl hx))
        · exact Or.inr (Or.inr (Or.inr (hu c hc)))
  · intro c hc
    rw [List.head?_append_of_ne_nil _ hm] at hc
    exact hmbytes c (List.mem_of_mem_head? hc)
  · have hstop : MantissaEnds digit (e ++ r') := by
      rcases he with rfl | ⟨x, u, rfl, hx, -⟩
      · exact mantissaEnds_of_delimited hr' hdigit
      · intro c hc
        rw [← Option.some.inj hc]
        exact hends x hx
    unfold scanFloat
    rw [List.append_assoc, hmcut _ hstop, Option.map_some, hecut r' hr']

/-! ### Words -/

/-- A word that is not in the text is not at its start, whatever follows. -/
theorem startsWord_eq_false {word : Bytes} (ha : a ≠ [])
    (hletters : ∀ c ∈ word.tail, 'a'.toUInt8 ≤ c ∧ c ≤ 'z'.toUInt8)
    (hbad : word.length ≤ a.length → ∃ c ∈ word, ∀ d ∈ a, tolower d ≠ c) (hr : Delimited r) :
    startsWord (a ++ r) word = false := by
  by_contra hstarts
  have hstarts := (Bool.not_eq_false _).mp hstarts
  have hstart : word <+: (a ++ r).map tolower := List.isPrefixOf_iff_prefix.1 hstarts
  rw [List.map_append] at hstart
  rcases Nat.lt_or_ge a.length word.length with hlt | hle
  · -- the word goes on in the text that follows, with a letter
    obtain ⟨t, ht⟩ := hstart
    have hat : word[a.length]? = (r.map tolower).head? := by
      have h := congrArg (fun l => l[a.length]?) ht
      rw [List.getElem?_append_left hlt, List.getElem?_append_right (by rw [List.length_map]), List.length_map,
        Nat.sub_self] at h
      rw [h, List.head?_eq_getElem?]
    rw [List.getElem?_eq_getElem hlt, List.head?_map] at hat
    obtain ⟨c, hc, hcl⟩ := Option.map_eq_some_iff.1 hat.symm
    have hpos := List.length_pos_iff.2 ha
    have htail : word[a.length] ∈ word.tail := by
      rw [List.mem_iff_getElem?]
      refine ⟨a.length - 1, ?_⟩
      rw [List.getElem?_tail, Nat.sub_add_cancel hpos, List.getElem?_eq_getElem hlt]
    have hgo := goesOn_of_tolower c (by rw [hcl]; exact hletters _ htail)
    rw [hr c hc] at hgo
    exact absurd hgo (by decide)
  · obtain ⟨c, hc, hnot⟩ := hbad hle
    have hin : word <+: a.map tolower :=
      List.prefix_of_prefix_length_le hstart (List.prefix_append _ _) (by rwa [List.length_map])
    obtain ⟨d, hd, hdc⟩ := List.mem_map.1 (hin.subset hc)
    exact hnot d hd hdc

theorem startsWord_append {word : Bytes} (h : startsWord a word = true) (r : Bytes) :
    startsWord (a ++ r) word = true := by
  have hstart : word <+: a.map tolower := List.isPrefixOf_iff_prefix.1 h
  unfold startsWord
  rw [List.map_append]
  exact List.isPrefixOf_iff_prefix.2 (hstart.trans (List.prefix_append _ _))

/-- A word at the start of a text, as it stands there. -/
theorem startsWord_take {word : Bytes} (h : startsWord s word = true) :
    startsWord (s.take word.length) word = true ∧ (s.take word.length).length = word.length := by
  have hstart : word <+: s.map tolower := List.isPrefixOf_iff_prefix.1 h
  have hlen := hstart.length_le
  rw [List.length_map] at hlen
  have htake : (s.take word.length).length = word.length := by
    rw [List.length_take]
    omega
  refine ⟨?_, htake⟩
  unfold startsWord
  rw [List.map_take, ← List.prefix_iff_eq_take.1 hstart]
  exact List.isPrefixOf_iff_prefix.2 (List.prefix_refl _)

/-- The bytes of a word are letters or a zero. -/
theorem tolower_mem_of_startsWord {word : Bytes} (h : startsWord s word = true) (hlen : s.length = word.length) :
    s.map tolower = word := by
  have hstart : word <+: s.map tolower := List.isPrefixOf_iff_prefix.1 h
  exact (hstart.eq_of_length (by rw [List.length_map, hlen])).symm

/-! ### Numbers -/

theorem scanUnsigned_eq (s : Bytes) : scanUnsigned s =
    if startsWord s (lit "0x") then
      (scanFloat isxdigit 'p'.toUInt8 (s.drop 2)).or (scanFloat isdigit 'e'.toUInt8 s)
    else if startsWord s (lit "infinity") then some (s.drop 8)
    else if startsWord s (lit "inf") then some (s.drop 3)
    else if startsWord s (lit "nan") then some (scanNanChars (s.drop 3))
    else scanFloat isdigit 'e'.toUInt8 s := by
  unfold scanUnsigned scanFloat
  dsimp only
  cases scanMantissa isxdigit (s.drop 2) <;> rfl

/-- How a number may start, so that it is not taken for a literal. -/
def NumberHead (a : Bytes) : Prop :=
  ∃ c t, a = c :: t ∧ wordByte c = true ∧ c ≠ 't'.toUInt8 ∧ c ≠ 'f'.toUInt8 ∧
    (c = 'n'.toUInt8 → ∃ d u, t = d :: u ∧ d ≠ 'u'.toUInt8)

/-- A number is cut out of a text. -/
def CutBy (scan : Bytes → Option Bytes) (a : Bytes) : Prop :=
  NumberHead a ∧ (∀ c ∈ a, wordByte c = true) ∧ ∀ r', Delimited r' → scan (a ++ r') = some r'

/-- The words that are numbers. -/
theorem float_words :
    ('n'.toUInt8 ∈ lit "infinity" ∧ (∀ c ∈ (lit "infinity").tail, 'a'.toUInt8 ≤ c ∧ c ≤ 'z'.toUInt8) ∧
        ∀ c ∈ lit "infinity", wordByte c = true) ∧
      ('n'.toUInt8 ∈ lit "inf" ∧ (∀ c ∈ (lit "inf").tail, 'a'.toUInt8 ≤ c ∧ c ≤ 'z'.toUInt8) ∧
        ∀ c ∈ lit "inf", wordByte c = true) ∧
      'n'.toUInt8 ∈ lit "nan" ∧ (∀ c ∈ (lit "nan").tail, 'a'.toUInt8 ≤ c ∧ c ≤ 'z'.toUInt8) ∧
        ∀ c ∈ lit "nan", wordByte c = true := by
  decide +kernel

/-- The start of a hexadecimal number. -/
theorem hex_word : (∀ c ∈ (lit "0x").tail, 'a'.toUInt8 ≤ c ∧ c ≤ 'z'.toUInt8) ∧
    ∀ c ∈ lit "0x", wordByte c = true := by
  decide +kernel

theorem scanUnsigned_decimal (hx : ∀ r', Delimited r' → startsWord (a ++ r') (lit "0x") = false)
    (hn : ∀ d ∈ a, tolower d ≠ 'n'.toUInt8) (hne : a ≠ [])
    (hr : Delimited r) : scanUnsigned (a ++ r) = scanFloat isdigit 'e'.toUInt8 (a ++ r) := by
  have hword : ∀ word : Bytes, 'n'.toUInt8 ∈ word → (∀ c ∈ word.tail, 'a'.toUInt8 ≤ c ∧ c ≤ 'z'.toUInt8) →
      ¬ startsWord (a ++ r) word = true := by
    intro word hmem hletters hstarts
    rw [startsWord_eq_false hne hletters (fun _ => ⟨_, hmem, hn⟩) hr] at hstarts
    exact absurd hstarts (by decide)
  obtain ⟨hinfinity, hinf, hnan⟩ := float_words
  rw [scanUnsigned_eq, hx r hr, if_neg Bool.false_ne_true, if_neg (hword _ hinfinity.1 hinfinity.2.1),
    if_neg (hword _ hinf.1 hinf.2.1), if_neg (hword _ hnan.1 hnan.2.1)]

/-- The bytes of a decimal number. -/
def decimalByte (c : UInt8) : Prop :=
  isdigit c = true ∨ c = '.'.toUInt8 ∨ tolower c = 'e'.toUInt8 ∨ exponentByte c = true

instance (c : UInt8) : Decidable (decimalByte c) := inferInstanceAs (Decidable (_ ∨ _))

/-- The bytes a number may start with. -/
def headByte (c : UInt8) : Prop :=
  isdigit c = true ∨ c = '.'.toUInt8 ∨ c = '+'.toUInt8 ∨ c = '-'.toUInt8 ∨ tolower c = 'i'.toUInt8

instance (c : UInt8) : Decidable (headByte c) := inferInstanceAs (Decidable (_ ∨ _))

/-- What tells the bytes of a number from each other and from those of a literal. -/
theorem number_bytes : ∀ c : UInt8,
    (decimalByte c → tolower c ≠ 'n'.toUInt8 ∧ tolower c ≠ 'x'.toUInt8 ∧ wordByte c = true) ∧
      (headByte c → wordByte c = true ∧ c ≠ 't'.toUInt8 ∧ c ≠ 'f'.toUInt8 ∧ c ≠ 'n'.toUInt8) ∧
      (tolower c = 'n'.toUInt8 → wordByte c = true ∧ c ≠ 't'.toUInt8 ∧ c ≠ 'f'.toUInt8) :=
  Lib.forall_uint8 (by decide +kernel)

/-- The marks of an exponent, and the digits. -/
theorem mark_bytes : ∀ c : UInt8,
    (tolower c = 'e'.toUInt8 → isdigit c = false ∧ c ≠ '.'.toUInt8) ∧
      (tolower c = 'p'.toUInt8 → isxdigit c = false ∧ c ≠ '.'.toUInt8 ∧ wordByte c = true) ∧
      (tolower c = '0'.toUInt8 → isdigit c = true) ∧ (exponentByte c = true → wordByte c = true) ∧
      (isdigit c = true → ¬ (c = '+'.toUInt8 ∨ c = '-'.toUInt8)) :=
  Lib.forall_uint8 (by decide +kernel)

theorem decimalByte_spec (c : UInt8) : decimalByte c →
    tolower c ≠ 'n'.toUInt8 ∧ tolower c ≠ 'x'.toUInt8 ∧ wordByte c = true := (number_bytes c).1

theorem headByte_spec (c : UInt8) : headByte c →
    wordByte c = true ∧ c ≠ 't'.toUInt8 ∧ c ≠ 'f'.toUInt8 ∧ c ≠ 'n'.toUInt8 := (number_bytes c).2.1

/-- Decimal bytes are read as a decimal number. -/
theorem scanUnsigned_of_decimalByte (hbytes : ∀ c ∈ a, decimalByte c) (hne : a ≠ []) (hr : Delimited r) :
    scanUnsigned (a ++ r) = scanFloat isdigit 'e'.toUInt8 (a ++ r) := by
  refine scanUnsigned_decimal (fun r' hr' => ?_) (fun d hd => (decimalByte_spec d (hbytes d hd)).1) hne hr
  exact startsWord_eq_false hne (hex_word).1
    (fun _ => ⟨'x'.toUInt8, by decide, fun d hd => (decimalByte_spec d (hbytes d hd)).2.1⟩) hr'

theorem decimal_cut (h : scanFloat isdigit 'e'.toUInt8 s = some r) : ∃ a, s = a ++ r ∧ CutBy scanUnsigned a := by
  have hpoint : isdigit '.'.toUInt8 = false := by decide
  have hends : ∀ c, tolower c = 'e'.toUInt8 → isdigit c = false ∧ c ≠ '.'.toUInt8 :=
    fun c => (mark_bytes c).1
  obtain ⟨a, rfl, hne, hbytes, hhead, hcut⟩ :=
    scanFloat_cut hpoint (by decide) goesOn_of_isdigit hends h
  obtain ⟨c, t, rfl⟩ := List.exists_cons_of_ne_nil hne
  obtain ⟨hword, ht, hf, hn⟩ := headByte_spec c ((hhead c rfl).imp_right Or.inl)
  refine ⟨c :: t, rfl, ⟨c, t, rfl, hword, ht, hf, fun h => absurd h hn⟩,
    fun d hd => (decimalByte_spec d (hbytes d hd)).2.2, fun r' hr' => ?_⟩
  rw [scanUnsigned_of_decimalByte hbytes hne hr', hcut r' hr']

theorem startsWord_cons {t word : Bytes} (h : startsWord (c :: t) word = true) (hne : word ≠ []) :
    word.head? = some (tolower c) := by
  obtain ⟨d, w, rfl⟩ := List.exists_cons_of_ne_nil hne
  obtain ⟨u, hu⟩ : (d :: w) <+: (c :: t).map tolower := List.isPrefixOf_iff_prefix.1 h
  exact congrArg some (List.cons.inj hu).1

/-- A word at the start of a text: its bytes, and its first byte. -/
theorem word_split (word : Bytes) {d : UInt8} {w : Bytes} (hword : word = d :: w) (h : startsWord s word = true) :
    ∃ x y, s = (x :: y) ++ s.drop word.length ∧ (x :: y).map tolower = word ∧ startsWord (x :: y) word = true ∧
      (x :: y).length = word.length := by
  obtain ⟨hstarts, hlen⟩ := startsWord_take h
  have hmap := tolower_mem_of_startsWord hstarts hlen
  obtain ⟨x, y, hxy⟩ : ∃ x y, s.take word.length = x :: y := by
    refine List.exists_cons_of_ne_nil fun hnil => ?_
    rw [hnil, hword] at hmap
    cases hmap
  rw [hxy] at hstarts hlen hmap
  refine ⟨x, y, ?_, hmap, hstarts, hlen⟩
  rw [← hxy, List.take_append_drop]

/-- A number without a sign. -/
theorem scanUnsigned_cut (h : scanUnsigned s = some r) : ∃ a, s = a ++ r ∧ CutBy scanUnsigned a := by
  rw [scanUnsigned_eq] at h
  have hwordBytes : ∀ word x : Bytes, (∀ c ∈ word, wordByte c = true) →
      x.map tolower = word → ∀ c ∈ x, wordByte c = true := by
    intro word x hword hx c hc
    have hlower : wordByte (tolower c) = true → wordByte c = true := (byte_classes c).2.2.2.2.2.1
    refine hlower (hword _ ?_)
    rw [← hx]
    exact List.mem_map_of_mem hc
  -- a word decides by its first byte that an earlier one does not stand there
  have hnot : ∀ {x : UInt8} {t word : Bytes}, word ≠ [] → word.head? ≠ some (tolower x) →
      ¬ startsWord (x :: t) word = true := fun hne hhead hstarts => hhead (startsWord_cons hstarts hne)
  have hi : ∀ x, tolower x = 'i'.toUInt8 → wordByte x = true ∧ x ≠ 't'.toUInt8 ∧ x ≠ 'f'.toUInt8 ∧ x ≠ 'n'.toUInt8 :=
    fun x hx => headByte_spec x (Or.inr (Or.inr (Or.inr (Or.inr hx))))
  split_ifs at h with hhex hinfinity hinf hnan
  · cases hfloat : scanFloat isxdigit 'p'.toUInt8 (s.drop 2) with
    | none =>
      rw [hfloat] at h
      exact decimal_cut h
    | some r₂ =>
      rw [hfloat] at h
      obtain rfl := Option.some.inj h
      obtain ⟨x, y, hs, hmap, hstarts, hlen⟩ := word_split (lit "0x") rfl hhex
      have hp : ∀ c, tolower c = 'p'.toUInt8 → isxdigit c = false ∧ c ≠ '.'.toUInt8 ∧ wordByte c = true :=
        fun c => (mark_bytes c).2.1
      have hends : ∀ c, tolower c = 'p'.toUInt8 → isxdigit c = false ∧ c ≠ '.'.toUInt8 :=
        fun c hc => ⟨(hp c hc).1, (hp c hc).2.1⟩
      obtain ⟨b, hb, -, hbytes, -, hcut⟩ :=
        scanFloat_cut (by decide) (by decide) goesOn_of_isxdigit hends hfloat
      have hbyte : ∀ c, (isxdigit c = true ∨ c = '.'.toUInt8 ∨ tolower c = 'p'.toUInt8 ∨ exponentByte c = true) →
          wordByte c = true := by
        rintro c (hc | rfl | hc | hc)
        · exact wordByte_of_goesOn c (goesOn_of_isxdigit c hc)
        · decide
        · exact (hp c hc).2.2
        · exact (mark_bytes c).2.2.2.1 hc
      have hzero : isdigit x = true := (mark_bytes x).2.2.1 (List.cons.inj hmap).1
      obtain ⟨hword, ht, hf, hn⟩ := headByte_spec x (Or.inl hzero)
      refine ⟨x :: y ++ b, ?_, ⟨x, y ++ b, rfl, hword, ht, hf, fun h => absurd h hn⟩, ?_, fun r' hr' => ?_⟩
      · rw [List.append_assoc, ← hb]
        exact hs
      · intro c hc
        rcases List.mem_append.1 hc with hc | hc
        · exact hwordBytes (lit "0x") _ (hex_word).2 hmap c hc
        · exact hbyte c (hbytes c hc)
      · have hdrop : (x :: y ++ (b ++ r')).drop 2 = b ++ r' := List.drop_left' hlen
        rw [List.append_assoc, scanUnsigned_eq, if_pos (startsWord_append hstarts _), hdrop, hcut r' hr']
        rfl
  · obtain rfl := Option.some.inj h
    obtain ⟨x, y, hs, hmap, hstarts, hlen⟩ := word_split (lit "infinity") rfl hinfinity
    have hx : tolower x = 'i'.toUInt8 := (List.cons.inj hmap).1
    obtain ⟨hword, ht, hf, hn⟩ := hi x hx
    refine ⟨x :: y, hs, ⟨x, y, rfl, hword, ht, hf, fun h => absurd h hn⟩,
      hwordBytes (lit "infinity") _ (float_words).1.2.2 hmap, fun r' _ => ?_⟩
    have hzero : ¬ startsWord (x :: y ++ r') (lit "0x") = true :=
      hnot (by decide) (by rw [hx]; decide)
    rw [scanUnsigned_eq, if_neg hzero, if_pos (startsWord_append hstarts r')]
    exact congrArg some (List.drop_left' hlen)
  · obtain rfl := Option.some.inj h
    obtain ⟨x, y, hs, hmap, hstarts, hlen⟩ := word_split (lit "inf") rfl hinf
    have hx : tolower x = 'i'.toUInt8 := (List.cons.inj hmap).1
    obtain ⟨hword, ht, hf, hn⟩ := hi x hx
    refine ⟨x :: y, hs, ⟨x, y, rfl, hword, ht, hf, fun h => absurd h hn⟩,
      hwordBytes (lit "inf") _ (float_words).2.1.2.2 hmap, fun r' hr' => ?_⟩
    have hzero : ¬ startsWord (x :: y ++ r') (lit "0x") = true :=
      hnot (by decide) (by rw [hx]; decide)
    have hlong : startsWord (x :: y ++ r') (lit "infinity") = false := by
      refine startsWord_eq_false (List.cons_ne_nil x y) (float_words).1.2.1 (fun hle => ?_) hr'
      rw [hlen] at hle
      exact absurd hle (by decide)
    rw [scanUnsigned_eq, if_neg hzero, hlong, if_neg (by decide), if_pos (startsWord_append hstarts r')]
    exact congrArg some (List.drop_left' hlen)
  · obtain rfl := Option.some.inj h
    obtain ⟨x, y, hs, hmap, hstarts, hlen⟩ := word_split (lit "nan") rfl hnan
    have hx : tolower x = 'n'.toUInt8 := (List.cons.inj hmap).1
    obtain ⟨hword, ht, hf⟩ := (number_bytes x).2.2 hx
    obtain ⟨b, hb, hbytes, hcut⟩ := scanNanChars_cut (s.drop 3)
    refine ⟨x :: y ++ b, ?_, ⟨x, y ++ b, rfl, hword, ht, hf, fun _ => ?_⟩, ?_, fun r' hr' => ?_⟩
    · rw [List.append_assoc, ← hb]
      exact hs
    · cases y with
      | nil => exact absurd (show 1 = 3 from hlen) (by decide)
      | cons d y =>
        have hd : tolower d = 'a'.toUInt8 := (List.cons.inj (List.cons.inj hmap).2).1
        refine ⟨d, y ++ b, rfl, ?_⟩
        rintro rfl
        exact absurd hd (by decide)
    · intro c hc
      rcases List.mem_append.1 hc with hc | hc
      · exact hwordBytes (lit "nan") _ (float_words).2.2.2.2 hmap c hc
      · exact hbytes c hc
    · have hother : ∀ word : Bytes, word ≠ [] → word.head? ≠ some 'n'.toUInt8 →
          ¬ startsWord (x :: y ++ (b ++ r')) word = true :=
        fun word hne hhead => hnot hne (by rwa [hx])
      have hdrop : (x :: y ++ (b ++ r')).drop 3 = b ++ r' := List.drop_left' hlen
      rw [List.append_assoc, scanUnsigned_eq, if_neg (hother _ (by decide) (by decide)),
        if_neg (hother _ (by decide) (by decide)), if_neg (hother _ (by decide) (by decide)),
        if_pos (startsWord_append hstarts _), hdrop, hcut r' hr']
  · exact decimal_cut h

theorem jsonWs_eq_self (h : ∀ c ∈ s.head?, isspace c = false) : jsonWs s = s := by
  unfold jsonWs
  cases s with
  | nil => rfl
  | cons c s => exact List.dropWhile_cons_of_neg (by simp [h c rfl])

theorem isspace_of_wordByte (c : UInt8) : wordByte c = true → isspace c = false :=
  (byte_classes c).2.2.2.2.1

theorem NumberHead.jsonWs (h : NumberHead a) (r : Bytes) : jsonWs (a ++ r) = a ++ r := by
  obtain ⟨c, t, rfl, hc, -⟩ := h
  refine jsonWs_eq_self fun d hd => ?_
  rw [← Option.some.inj hd]
  exact isspace_of_wordByte c hc

/-- A number, with its sign. -/
theorem jsonNumber_cut (hs : ∀ c ∈ s.head?, isspace c = false) (h : jsonNumber s = some r) :
    ∃ a, s = a ++ r ∧ CutBy jsonNumber a := by
  unfold jsonNumber at h
  rw [jsonWs_eq_self hs] at h
  cases s with
  | nil => cases h
  | cons c t =>
    dsimp only at h
    split_ifs at h with hsign
    · obtain ⟨a, rfl, -, hbytes, hcut⟩ := scanUnsigned_cut h
      obtain ⟨hword, ht, hf, hn⟩ := headByte_spec c (Or.inr (Or.inr (hsign.imp_right Or.inl)))
      have hhead : NumberHead (c :: a) := ⟨c, a, rfl, hword, ht, hf, fun h => absurd h hn⟩
      refine ⟨c :: a, rfl, hhead, List.forall_mem_cons.2 ⟨hword, hbytes⟩, fun r' hr' => ?_⟩
      unfold jsonNumber
      rw [hhead.jsonWs, List.cons_append]
      dsimp only
      rw [if_pos hsign, hcut r' hr']
    · obtain ⟨a, ha, hhead, hbytes, hcut⟩ := scanUnsigned_cut h
      refine ⟨a, ha, hhead, hbytes, fun r' hr' => ?_⟩
      unfold jsonNumber
      rw [hhead.jsonWs]
      obtain ⟨d, u, rfl, -⟩ := hhead
      obtain rfl := (List.cons.inj ha).1
      have hd := hcut r' hr'
      rw [List.cons_append] at hd ⊢
      dsimp only
      rw [if_neg hsign, hd]

/-! ### Literals and numbers -/

theorem jsonLit_eq_some_iff {l : Bytes} : jsonLit s l = some r ↔ s = l ++ r := by
  unfold jsonLit
  constructor
  · intro h
    split_ifs at h with hstart
    obtain ⟨t, rfl⟩ := List.isPrefixOf_iff_prefix.1 hstart
    rw [List.drop_left] at h
    rw [Option.some.inj h]
  · rintro rfl
    rw [if_pos (List.isPrefixOf_iff_prefix.2 (List.prefix_append l r)), List.drop_left]

/-- A number is no literal. -/
theorem NumberHead.jsonLit_eq_none {l : Bytes} (h : NumberHead a) (hl : l ∈ Lib.Json.words) (r : Bytes) :
    jsonLit (a ++ r) l = none := by
  rw [Option.eq_none_iff_forall_ne_some]
  intro t ht
  rw [jsonLit_eq_some_iff] at ht
  obtain ⟨c, u, rfl, -, hct, hcf, hcn⟩ := h
  simp only [Lib.Json.words, List.mem_cons, List.not_mem_nil, or_false] at hl
  rcases hl with rfl | rfl | rfl
  · exact hct (List.cons.inj ht).1
  · exact hcf (List.cons.inj ht).1
  · obtain ⟨d, v, rfl, hd⟩ := hcn (List.cons.inj ht).1
    exact hd (List.cons.inj (List.cons.inj ht).2).1

theorem jsonSkipScalar_word {l : Bytes} (hl : l ∈ Lib.Json.words) (r : Bytes) : jsonSkipScalar (l ++ r) = some r := by
  have hlit : ∀ l' : Bytes, jsonLit (l' ++ r) l' = some r := fun l' => (jsonLit_eq_some_iff).2 rfl
  simp only [Lib.Json.words, List.mem_cons, List.not_mem_nil, or_false] at hl
  rcases hl with rfl | rfl | rfl
  · rfl
  · rfl
  · rfl

theorem jsonSkipScalar_number (h : NumberHead a) (r : Bytes) : jsonSkipScalar (a ++ r) = jsonNumber (a ++ r) := by
  unfold jsonSkipScalar
  rw [h.jsonLit_eq_none (by decide), h.jsonLit_eq_none (by decide), h.jsonLit_eq_none (by decide)]
  rfl

theorem words_bytes : ∀ l ∈ Lib.Json.words, l ≠ [] ∧ ∀ c ∈ l, wordByte c = true := by decide +kernel

/-- **A literal or a number** is cut out of a text. -/
theorem jsonSkipScalar_cut (hs : ∀ c ∈ s.head?, isspace c = false) (h : jsonSkipScalar s = some r) :
    ∃ a, s = a ++ r ∧ a ≠ [] ∧ (∀ c ∈ a, wordByte c = true) ∧
      ∀ r', Delimited r' → jsonSkipScalar (a ++ r') = some r' := by
  have hword : ∀ l ∈ Lib.Json.words, jsonLit s l = some r → ∃ a, s = a ++ r ∧ a ≠ [] ∧
      (∀ c ∈ a, wordByte c = true) ∧ ∀ r', Delimited r' → jsonSkipScalar (a ++ r') = some r' := by
    intro l hl hlit
    exact ⟨l, (jsonLit_eq_some_iff).1 hlit, (words_bytes l hl).1, (words_bytes l hl).2, fun r' _ => jsonSkipScalar_word hl r'⟩
  unfold jsonSkipScalar at h
  rcases Option.or_eq_some_iff.1 h with h | ⟨-, h⟩
  · rcases Option.or_eq_some_iff.1 h with h | ⟨-, h⟩
    · exact hword _ (by decide) h
    · exact hword _ (by decide) h
  · rcases Option.or_eq_some_iff.1 h with h | ⟨-, h⟩
    · exact hword _ (by decide) h
    · obtain ⟨a, rfl, hhead, hbytes, hcut⟩ := jsonNumber_cut hs h
      refine ⟨a, rfl, ?_, hbytes, fun r' hr' => ?_⟩
      · obtain ⟨c, t, rfl, -⟩ := hhead
        exact List.cons_ne_nil c t
      · rw [jsonSkipScalar_number hhead, hcut r' hr']

/-! ### Numbers of RFC 8259 -/

theorem isdigit_iff (c : UInt8) : isdigit c = true ↔ 0x30 ≤ c ∧ c ≤ 0x39 := (byte_classes c).2.2.2.2.2.2

theorem digits_isdigit {ds : Bytes} (h : Lib.Json.Digits ds) : ∀ c ∈ ds, isdigit c = true :=
  fun c hc => (isdigit_iff c).2 (h.2 c hc)

theorem scanExponent_exponent {x : Bytes} (hx : Lib.Json.Exponent x) (hr : Delimited r) :
    scanExponent 'e'.toUInt8 (x ++ r) = r := by
  rcases hx with rfl | ⟨e, sign, ds, he, hsign, hds, rfl⟩
  · exact scanExponent_none (by decide) hr
  · have hlower : tolower e = 'e'.toUInt8 := by
      rcases he with rfl | rfl
      · decide
      · decide
    rw [List.cons_append, List.append_assoc]
    exact scanExponent_digits hlower hsign (digits_isdigit hds) hds.1 (head?_of_delimited hr goesOn_of_isdigit)

/-- What may stand behind the digits of a number. -/
theorem exponent_ends {x : Bytes} (hx : Lib.Json.Exponent x) (hr : Delimited r) : MantissaEnds isdigit (x ++ r) := by
  rcases hx with rfl | ⟨e, sign, ds, he, -, -, rfl⟩
  · exact mantissaEnds_of_delimited hr goesOn_of_isdigit
  · intro c hc
    obtain rfl := Option.some.inj hc
    rcases he with rfl | rfl
    · decide
    · decide

theorem scanMantissa_integer {int frac : Bytes} (hint : Lib.Json.Integer int) (hfrac : Lib.Json.Fraction frac)
    (hr : MantissaEnds isdigit r) : scanMantissa isdigit (int ++ (frac ++ r)) = some r := by
  have hdigits : (∀ c ∈ int, isdigit c = true) ∧ int ≠ [] := by
    rcases hint with rfl | ⟨hint, -⟩
    · refine ⟨fun c hc => ?_, List.cons_ne_nil _ _⟩
      rw [List.mem_singleton.1 hc]
      decide
    · exact ⟨digits_isdigit hint, hint.1⟩
  rcases hfrac with rfl | ⟨ds, hds, rfl⟩
  · exact scanMantissa_digits hdigits.1 hdigits.2 hr
  · exact scanMantissa_point (by decide) hdigits.1 (digits_isdigit hds) (Or.inl hdigits.2) fun c hc => (hr c hc).1

theorem decimalByte_number {int frac exp : Bytes} (hint : Lib.Json.Integer int) (hfrac : Lib.Json.Fraction frac)
    (hexp : Lib.Json.Exponent exp) : ∀ c ∈ int ++ (frac ++ exp), decimalByte c := by
  intro c hc
  rcases List.mem_append.1 hc with hc | hc
  · refine Or.inl ?_
    rcases hint with rfl | ⟨hint, -⟩
    · rw [List.mem_singleton.1 hc]
      decide
    · exact digits_isdigit hint c hc
  · rcases List.mem_append.1 hc with hc | hc
    · rcases hfrac with rfl | ⟨ds, hds, rfl⟩
      · cases hc
      · rcases List.mem_cons.1 hc with rfl | hc
        · exact Or.inr (Or.inl rfl)
        · exact Or.inl (digits_isdigit hds c hc)
    · rcases hexp with rfl | ⟨e, sign, ds, he, hsign, hds, rfl⟩
      · cases hc
      · rcases List.mem_cons.1 hc with rfl | hc
        · rcases he with rfl | rfl
          · decide
          · decide
        · rcases List.mem_append.1 hc with hc | hc
          · rcases hsign with rfl | rfl | rfl
            · cases hc
            · rw [List.mem_singleton.1 hc]
              decide
            · rw [List.mem_singleton.1 hc]
              decide
          · exact Or.inl (digits_isdigit hds c hc)

/-- **Every number** is read to its end, in front of a text that does not continue it. -/
theorem jsonSkipScalar_of_number {x : Bytes} (hx : Lib.Json.Number x) :
    (∀ r, Delimited r → jsonSkipScalar (x ++ r) = some r) ∧ NumberHead x ∧ ∀ c ∈ x, wordByte c = true := by
  obtain ⟨hminus, hint, hfrac, hexp⟩ := hx
  rename_i minus int frac exp
  have hne : int ++ (frac ++ exp) ≠ [] := by
    rcases hint with rfl | ⟨hint, -⟩
    · exact List.cons_ne_nil _ _
    · exact List.append_ne_nil_of_left_ne_nil hint.1 _
  have hbytes := decimalByte_number hint hfrac hexp
  have hscan : ∀ r, Delimited r → scanUnsigned (int ++ (frac ++ exp) ++ r) = some r := by
    intro r hr
    rw [scanUnsigned_of_decimalByte hbytes hne hr, List.append_assoc, List.append_assoc, scanFloat,
      scanMantissa_integer hint hfrac (exponent_ends hexp hr), Option.map_some, scanExponent_exponent hexp hr]
  obtain ⟨d, u, hu, hd⟩ : ∃ d u, int ++ (frac ++ exp) = d :: u ∧ isdigit d = true := by
    rcases hint with rfl | ⟨hint, -⟩
    · exact ⟨_, _, rfl, by decide⟩
    · obtain ⟨d, int', rfl⟩ := List.exists_cons_of_ne_nil hint.1
      exact ⟨d, _, rfl, digits_isdigit hint d List.mem_cons_self⟩
  have hsign : ∀ c, isdigit c = true → ¬ (c = '+'.toUInt8 ∨ c = '-'.toUInt8) :=
    fun c => (mark_bytes c).2.2.2.2
  have hhead : NumberHead (minus ++ (int ++ (frac ++ exp))) := by
    rcases hminus with rfl | rfl
    · obtain ⟨hword, ht, hf, hn⟩ := headByte_spec d (Or.inl hd)
      exact ⟨d, u, hu, hword, ht, hf, fun h => absurd h hn⟩
    · exact ⟨_, _, rfl, by decide, by decide, by decide, fun h => absurd h (by decide)⟩
  refine ⟨fun r hr => ?_, hhead, fun c hc => ?_⟩
  · rw [jsonSkipScalar_number hhead]
    unfold jsonNumber
    rw [hhead.jsonWs]
    rcases hminus with rfl | rfl
    · rw [List.nil_append, hu, List.cons_append]
      dsimp only
      rw [if_neg (hsign d hd), ← List.cons_append, ← hu, hscan r hr]
    · exact (if_pos (Or.inr rfl)).trans (hscan r hr)
  · rcases List.mem_append.1 hc with hc | hc
    · rcases hminus with rfl | rfl
      · cases hc
      · rw [List.mem_singleton.1 hc]
        decide
    · exact (decimalByte_spec c (hbytes c hc)).2.2

end DS4.Server
