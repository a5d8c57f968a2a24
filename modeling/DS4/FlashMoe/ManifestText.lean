import DS4.FlashMoe.Sidecar
import DS4.Lib.Bytes

namespace DS4.FlashMoe

/-!
# Flash-MoE — a manifest as a packer writes it

An entry is written as its members in order, the layer last.  What is read of it does not depend on what
follows it in the file.

* `entryText`, `manifestText` — the text.
* `findKey_member` — a key leads to its value.
* `parseEntry_text`, `flashMoeForEachEntry_text` — what is read of an entry, and of all of them.
* `sidecar_bounded_iff` — when the places of an open sidecar are as they should be.
-/

open DS4.Server (Bytes lit cstr strstr isspace)

/-! ### Keys and values -/

variable {s t u pre post : Bytes} {i n : Nat} {key : String}

/-- What follows a place does not move it. -/
theorem strstr_append (h : strstr s u = some i) (t : Bytes) : strstr (s ++ t) u = some i :=
  Lib.findSub_takeWhile_append h t

theorem take_cons_head {c : UInt8} (hn : 0 < n) : ((⟨c :: s, n⟩ : Cursor).head?) = some c := by
  unfold Cursor.head?
  rw [if_neg (by show n ≠ 0; omega)]
  rfl

theorem skipSpace_cons {c : UInt8} (hc : isspace c = false) (s : Bytes) (n : Nat) :
    (⟨c :: s, n⟩ : Cursor).skipSpace = ⟨c :: s, n⟩ := by
  unfold Cursor.skipSpace Cursor.drop
  cases n with
  | zero => rfl
  | succ n =>
    rw [List.take_succ_cons, List.takeWhile_cons, if_neg (by rw [hc]; exact nofun)]
    rfl

/-- **A key** that does not stand earlier in the object leads to its value. -/
theorem findKey_member (hfirst : strstr (pre ++ keyPat key) (keyPat key) = some pre.length)
    (post : Bytes) (n : Nat) :
    findKey ⟨pre ++ keyPat key ++ lit ":" ++ post, pre.length + (keyPat key).length + 1 + n⟩ key =
      some ⟨post, n⟩ := by
  have hfind : strstr (pre ++ keyPat key ++ lit ":" ++ post) (keyPat key) = some pre.length := by
    rw [List.append_assoc]
    exact strstr_append hfirst _
  have hdrop : (pre ++ keyPat key ++ lit ":" ++ post).drop (pre.length + (keyPat key).length) =
      ':'.toUInt8 :: post := by
    rw [List.append_assoc, ← List.length_append, List.drop_left]
    rfl
  unfold findKey findKeyLoop
  dsimp only
  rw [if_neg (by omega), hfind]
  dsimp only
  rw [if_neg (by omega)]
  have hq : (⟨pre ++ keyPat key ++ lit ":" ++ post, pre.length + (keyPat key).length + 1 + n⟩ : Cursor).drop
      (pre.length + (keyPat key).length) = ⟨':'.toUInt8 :: post, n + 1⟩ := by
    have hleft : pre.length + (keyPat key).length + 1 + n - (pre.length + (keyPat key).length) = n + 1 := by omega
    unfold Cursor.drop
    dsimp only
    rw [hdrop, hleft]
  rw [hq, skipSpace_cons (by decide), take_cons_head (Nat.succ_pos n), if_pos rfl]
  rfl

/-- A number in decimal digits, of 64 bits. -/
structure Digits (ds : Bytes) : Prop where
  digit : ∀ d ∈ ds, isDigit d = true
  ne_nil : ds ≠ []
  lt : decimal ds < UInt64.size

theorem isspace_of_isDigit : ∀ c : UInt8, isDigit c = true → isspace c = false :=
  Lib.forall_uint8 (by decide +kernel)

/-- A number is where it starts. -/
theorem skipSpace_digits {ds : Bytes} (h : Digits ds) (t : Bytes) (n : Nat) :
    (⟨ds ++ t, n⟩ : Cursor).skipSpace = ⟨ds ++ t, n⟩ := by
  obtain ⟨d, ds', rfl⟩ := List.exists_cons_of_ne_nil h.ne_nil
  exact skipSpace_cons (isspace_of_isDigit d (h.digit d List.mem_cons_self)) _ _

/-- A number in front of something that is no digit. -/
theorem u64_digits {ds : Bytes} {c : UInt8} (h : Digits ds) (hc : isDigit c = false) (t : Bytes)
    (hn : ds.length ≤ n) :
    (⟨ds ++ c :: t, n⟩ : Cursor).u64 = some (UInt64.ofNat (decimal ds), ⟨c :: t, n - ds.length⟩) := by
  have hlt := h.lt
  have hwhile : (ds ++ c :: t).takeWhile isDigit = ds := by
    rw [List.takeWhile_append_of_pos h.digit, List.takeWhile_cons, if_neg (by rw [hc]; exact nofun),
      List.append_nil]
  obtain ⟨d, ds', rfl⟩ := List.exists_cons_of_ne_nil h.ne_nil
  have hpos : 0 < n := Nat.lt_of_lt_of_le (Nat.succ_pos _) hn
  unfold Cursor.u64
  rw [List.cons_append, take_cons_head hpos]
  dsimp only
  rw [← List.cons_append, hwhile, if_neg]
  · unfold Cursor.drop
    dsimp only
    rw [List.drop_left]
  · rintro (hd | hd | hd)
    · exact hd (h.digit d List.mem_cons_self)
    · omega
    · exact absurd hn (Nat.not_le.mpr hd)

/-- A number of an array. -/
theorem u64s_cons {ds seps : Bytes} {sep : UInt8} (h : Digits ds) (hsep : isDigit sep = false)
    (hspace : isspace sep = false) (t : Bytes) (hn : ds.length < n) :
    u64s (sep :: seps) ⟨ds ++ sep :: t, n⟩ =
      (u64s seps ⟨t, n - ds.length - 1⟩).map (UInt64.ofNat (decimal ds) :: ·) := by
  rw [u64s, skipSpace_digits h, u64_digits h hsep t (Nat.le_of_lt hn)]
  dsimp only
  rw [skipSpace_cons hspace, take_cons_head (Nat.sub_pos_of_lt hn), if_pos rfl]
  rfl

/-- Bytes that are neither quotation marks nor backslashes are read as they are. -/
theorem stringLoop_raw {x t : Bytes} (hx : ∀ c ∈ x, c ≠ '"'.toUInt8 ∧ c ≠ '\\'.toUInt8) (ht : t ≠ []) :
    stringLoop (x ++ t) = (stringLoop t).map (x ++ ·) := by
  induction x with
  | nil => exact Option.map_id_apply.symm
  | cons c x ih =>
    obtain ⟨hquote, hslash⟩ := hx c List.mem_cons_self
    have hrest := ih fun d hd => hx d (List.mem_cons_of_mem c hd)
    obtain ⟨e, u, hu⟩ : ∃ e u, x ++ t = e :: u := List.exists_cons_of_ne_nil (by simp [ht])
    rw [List.cons_append, hu, stringLoop, if_neg hquote, if_neg hslash, ← hu, hrest, Option.map_map]
    rfl

/-- A string without quotation marks and backslashes. -/
theorem stringLoop_plain {x : Bytes} (hx : ∀ c ∈ x, c ≠ '"'.toUInt8 ∧ c ≠ '\\'.toUInt8) (t : Bytes) :
    stringLoop (x ++ '"'.toUInt8 :: t) = some x := by
  have hquote : stringLoop ('"'.toUInt8 :: t) = some [] := by
    cases t with
    | nil => rfl
    | cons e t => exact if_pos rfl
  rw [stringLoop_raw hx (List.cons_ne_nil _ t), hquote, Option.map_some, List.append_nil]

/-! ### Entries -/

/-- A member and the comma behind it. -/
def memberText (m : String × Bytes) : Bytes := keyPat m.1 ++ lit ":" ++ m.2 ++ lit ","

/-- The members of an entry in order; the layer is the last. -/
def headText (ms : List (String × Bytes)) : Bytes := lit "\x7b" ++ ms.flatMap memberText

def entryText (ms : List (String × Bytes)) (layer : Bytes) : Bytes :=
  headText ms ++ keyPat "layer" ++ lit ":" ++ layer ++ lit "\x7d"

variable {ms before after : List (String × Bytes)} {value layer : Bytes}

/-- A member of an entry is found. -/
theorem findKey_entry (hms : ms = before ++ (key, value) :: after)
    (hfirst : strstr (headText before ++ keyPat key) (keyPat key) = some (headText before).length)
    (layer rest : Bytes) :
    ∃ post n, findKey ⟨entryText ms layer ++ rest, (entryText ms layer).length⟩ key =
      some ⟨value ++ ','.toUInt8 :: post, value.length + 1 + n⟩ := by
  let post := after.flatMap memberText ++ (keyPat "layer" ++ lit ":" ++ layer ++ lit "\x7d")
  have htext : entryText ms layer = headText before ++ keyPat key ++ lit ":" ++ (value ++ ','.toUInt8 :: post) := by
    rw [hms]
    unfold entryText headText
    rw [List.flatMap_append, List.flatMap_cons]
    simp only [memberText, List.append_assoc]
    rfl
  refine ⟨post ++ rest, post.length, ?_⟩
  have hfind := findKey_member hfirst (value ++ ','.toUInt8 :: post ++ rest) (value.length + 1 + post.length)
  have hlen : (entryText ms layer).length =
      (headText before).length + (keyPat key).length + 1 + (value.length + 1 + post.length) := by
    rw [htext]
    simp only [List.length_append, List.length_cons]
    have hcolon : (lit ":").length = 1 := by decide
    omega
  have hcat : entryText ms layer ++ rest =
      headText before ++ keyPat key ++ lit ":" ++ (value ++ ','.toUInt8 :: post ++ rest) := by
    rw [htext, List.append_assoc]
  rw [hlen, hcat, hfind, List.append_assoc]
  rfl

/-- A number of an entry. -/
theorem jsonU64_entry (hms : ms = before ++ (key, value) :: after)
    (hfirst : strstr (headText before ++ keyPat key) (keyPat key) = some (headText before).length)
    (hds : Digits value) (layer rest : Bytes) :
    jsonU64 ⟨entryText ms layer ++ rest, (entryText ms layer).length⟩ key =
      some (UInt64.ofNat (decimal value)) := by
  obtain ⟨post, n, hfind⟩ := findKey_entry hms hfirst layer rest
  unfold jsonU64
  rw [hfind]
  dsimp only
  rw [skipSpace_digits hds, u64_digits hds (by decide) _ (by omega)]
  rfl

/-- A string of an entry. -/
theorem jsonString_entry {x : Bytes} (hms : ms = before ++ (key, '"'.toUInt8 :: (x ++ ['"'.toUInt8])) :: after)
    (hfirst : strstr (headText before ++ keyPat key) (keyPat key) = some (headText before).length)
    (hx : ∀ c ∈ x, c ≠ '"'.toUInt8 ∧ c ≠ '\\'.toUInt8) (layer rest : Bytes) :
    jsonString ⟨entryText ms layer ++ rest, (entryText ms layer).length⟩ key = some (cstr x) := by
  obtain ⟨post, n, hfind⟩ := findKey_entry hms hfirst layer rest
  have htake : ('"'.toUInt8 :: (x ++ ['"'.toUInt8]) ++ ','.toUInt8 :: post).take
      (('"'.toUInt8 :: (x ++ ['"'.toUInt8])).length + 1 + n) =
      '"'.toUInt8 :: (x ++ '"'.toUInt8 :: (','.toUInt8 :: post).take (1 + n)) := by
    rw [Nat.add_assoc, List.take_length_add_append, List.cons_append, List.append_assoc]
    rfl
  have hspace := @skipSpace_cons '"'.toUInt8 (by decide) (x ++ ['"'.toUInt8] ++ ','.toUInt8 :: post)
    (('"'.toUInt8 :: (x ++ ['"'.toUInt8])).length + 1 + n)
  rw [← List.cons_append] at hspace
  unfold jsonString
  rw [hfind]
  dsimp only
  rw [hspace]
  dsimp only
  rw [htake]
  dsimp only
  rw [if_pos rfl, stringLoop_plain hx]
  rfl

/-- A truth value of an entry. -/
theorem jsonBool_entry (hms : ms = before ++ (key, lit "true") :: after)
    (hfirst : strstr (headText before ++ keyPat key) (keyPat key) = some (headText before).length)
    (layer rest : Bytes) :
    jsonBool ⟨entryText ms layer ++ rest, (entryText ms layer).length⟩ key = some true := by
  obtain ⟨post, n, hfind⟩ := findKey_entry hms hfirst layer rest
  have hspace : (⟨lit "true" ++ ','.toUInt8 :: post, (lit "true").length + 1 + n⟩ : Cursor).skipSpace =
      ⟨lit "true" ++ ','.toUInt8 :: post, (lit "true").length + 1 + n⟩ := skipSpace_cons (by decide) _ _
  unfold jsonBool
  rw [hfind]
  dsimp only
  rw [hspace, if_pos]
  dsimp only
  rw [Nat.add_assoc, List.take_length_add_append]
  exact List.isPrefixOf_iff_prefix.mpr (List.prefix_append _ _)

/-- A shape of an entry. -/
theorem jsonU64Array3_entry {x y z : Bytes}
    (hms : ms = before ++ (key, lit "[" ++ x ++ lit "," ++ y ++ lit "," ++ z ++ lit "]") :: after)
    (hfirst : strstr (headText before ++ keyPat key) (keyPat key) = some (headText before).length)
    (hx : Digits x) (hy : Digits y) (hz : Digits z) (layer rest : Bytes) :
    jsonU64Array3 ⟨entryText ms layer ++ rest, (entryText ms layer).length⟩ key =
      some [UInt64.ofNat (decimal x), UInt64.ofNat (decimal y), UInt64.ofNat (decimal z)] := by
  obtain ⟨post, n, hfind⟩ := findKey_entry hms hfirst layer rest
  have htext : lit "[" ++ x ++ lit "," ++ y ++ lit "," ++ z ++ lit "]" ++ ','.toUInt8 :: post =
      '['.toUInt8 :: (x ++ ','.toUInt8 :: (y ++ ','.toUInt8 :: (z ++ ']'.toUInt8 :: ','.toUInt8 :: post))) := by
    simp only [List.append_assoc]
    rfl
  have hlen : (lit "[" ++ x ++ lit "," ++ y ++ lit "," ++ z ++ lit "]").length + 1 + n =
      x.length + (y.length + (z.length + (n + 4))) + 1 := by
    have h1 : (lit "[").length = 1 := by decide
    have h2 : (lit ",").length = 1 := by decide
    have h3 : (lit "]").length = 1 := by decide
    simp only [List.length_append, h1, h2, h3]
    omega
  rw [htext, hlen] at hfind
  unfold jsonU64Array3
  rw [hfind]
  dsimp only
  rw [skipSpace_cons (by decide), take_cons_head (Nat.succ_pos _), if_pos rfl]
  show u64s _ ⟨x ++ _, x.length + (y.length + (z.length + (n + 4)))⟩ = _
  rw [u64s_cons hx (by decide) (by decide) _ (by omega), Nat.add_sub_cancel_left]
  show (u64s _ ⟨y ++ _, y.length + (z.length + (n + 4)) - 1⟩).map _ = _
  rw [u64s_cons hy (by decide) (by decide) _ (by omega)]
  rw [u64s_cons hz (by decide) (by decide) _ (by omega)]
  rfl

/-- The layer of an entry. -/
theorem jsonU64_layer (hfirst : strstr (headText ms ++ keyPat "layer") (keyPat "layer") = some (headText ms).length)
    (hds : Digits layer) (rest : Bytes) :
    jsonU64 ⟨entryText ms layer ++ rest, (entryText ms layer).length⟩ "layer" =
      some (UInt64.ofNat (decimal layer)) := by
  have hcat : entryText ms layer ++ rest =
      headText ms ++ keyPat "layer" ++ lit ":" ++ (layer ++ '\x7d'.toUInt8 :: rest) := by
    unfold entryText
    simp only [List.append_assoc]
    rfl
  have hlen : (entryText ms layer).length = (headText ms).length + (keyPat "layer").length + 1 + (layer.length + 1) := by
    have hcolon : (lit ":").length = 1 := by decide
    have hbrace : (lit "\x7d").length = 1 := by decide
    unfold entryText
    simp only [List.length_append, hcolon, hbrace]
    omega
  unfold jsonU64
  rw [hcat, hlen, findKey_member hfirst]
  dsimp only
  rw [skipSpace_digits hds, u64_digits hds (by decide) _ (by omega)]
  rfl

/-! ### Objects -/

/-- A scan that goes on. -/
theorem objectLength_append {st : Scan} (h : objectLength s st = none) (t : Bytes) :
    objectLength (s ++ t) st = (objectLength t (s.foldl Scan.step st)).map (· + s.length) := by
  induction s generalizing st with
  | nil =>
    show objectLength t st = (objectLength t st).map id
    exact (Option.map_id_apply).symm
  | cons c s ih =>
    rw [objectLength] at h
    split at h
    · exact absurd h nofun
    · rename_i hgo
      rw [List.cons_append, objectLength, if_neg hgo, ih (Option.map_eq_none_iff.mp h), Option.map_map]
      exact congrFun (congrArg Option.map (funext fun n => (Nat.add_assoc n s.length 1))) _

/-- Digits change nothing. -/
theorem foldl_step_digits {ds : Bytes} (hds : ∀ d ∈ ds, isDigit d = true) :
    objectLength ds ⟨1, false, false⟩ = none ∧ ds.foldl Scan.step ⟨1, false, false⟩ = ⟨1, false, false⟩ := by
  have hstep : ∀ d : UInt8, isDigit d = true → d ≠ '\x7d'.toUInt8 ∧
      Scan.step ⟨1, false, false⟩ d = ⟨1, false, false⟩ := Lib.forall_uint8 (by decide +kernel)
  induction ds with
  | nil => exact ⟨rfl, rfl⟩
  | cons d ds ih =>
    obtain ⟨hne, heq⟩ := hstep d (hds d List.mem_cons_self)
    obtain ⟨hnone, hfold⟩ := ih fun c hc => hds c (List.mem_cons_of_mem d hc)
    constructor
    · rw [objectLength, if_neg fun h => hne h.1, heq, hnone]
      rfl
    · rw [List.foldl_cons, heq]
      exact hfold

/-- The text up to the layer leaves the object open. -/
def Opens (ms : List (String × Bytes)) : Prop :=
  objectLength (headText ms ++ keyPat "layer" ++ lit ":") ⟨0, false, false⟩ = none ∧
    (headText ms ++ keyPat "layer" ++ lit ":").foldl Scan.step ⟨0, false, false⟩ = ⟨1, false, false⟩

instance (ms : List (String × Bytes)) : Decidable (Opens ms) := inferInstanceAs (Decidable (_ ∧ _))

/-- **An entry** ends with its brace. -/
theorem objectLength_entry (hopens : Opens ms) (hds : Digits layer) (rest : Bytes) :
    objectLength (entryText ms layer ++ rest) ⟨0, false, false⟩ = some (entryText ms layer).length := by
  obtain ⟨hnone, hfold⟩ := foldl_step_digits hds.digit
  have hcat : entryText ms layer ++ rest =
      headText ms ++ keyPat "layer" ++ lit ":" ++ (layer ++ ('\x7d'.toUInt8 :: rest)) := by
    unfold entryText
    simp only [List.append_assoc]
    rfl
  have hlen : (entryText ms layer).length =
      1 + layer.length + (headText ms ++ keyPat "layer" ++ lit ":").length := by
    have hbrace : (lit "\x7d").length = 1 := by decide
    unfold entryText
    simp only [List.length_append, hbrace]
    omega
  rw [hcat, hlen, objectLength_append hopens.1, hopens.2, objectLength_append hnone, hfold, objectLength,
    if_pos ⟨rfl, rfl, rfl⟩]
  rfl

/-- Objects with commas between them, up to the end of the file. -/
def entriesText : List Bytes → Bytes
  | []      => lit "]\x7d"
  | [o]     => o ++ lit "]\x7d"
  | o :: os => o ++ lit "," ++ entriesText os

def manifestText (os : List Bytes) : Bytes := lit "\x7b\"entries\":[" ++ entriesText os

variable {σ : Type} {fn : Cursor → σ → Option σ}

/-- What the loop needs of an object: it starts and ends with its braces, and only it is read. -/
structure Reads (fn : Cursor → σ → Option σ) (o : Bytes) (g : σ → Option σ) : Prop where
  head : o.head? = some '\x7b'.toUInt8
  length : ∀ rest, objectLength (o ++ rest) ⟨0, false, false⟩ = some o.length
  read : ∀ rest ud, fn ⟨o ++ rest, o.length⟩ ud = g ud

/-- The place behind an object and the comma that may follow it. -/
def nextEntry (rest : Bytes) : Bytes :=
  if (rest.dropWhile isspace).head? = some ','.toUInt8 then (rest.dropWhile isspace).tail
  else rest.dropWhile isspace

theorem dropWhile_spaces {w : Bytes} (hw : ∀ c ∈ w, isspace c = true) {c : UInt8} (hc : isspace c = false)
    (s : Bytes) : (w ++ c :: s).dropWhile isspace = c :: s := by
  rw [List.dropWhile_append_of_pos hw, List.dropWhile_cons, if_neg (by rw [hc]; simp)]

/-- **One round** of the loop at an object. -/
theorem entriesLoop_object {o w rest : Bytes} (hhead : o.head? = some '\x7b'.toUInt8)
    (hlen : objectLength (o ++ rest) ⟨0, false, false⟩ = some o.length) (hne : rest ≠ [])
    (hw : ∀ c ∈ w, isspace c = true) (fuel : Nat) (ud : σ) :
    entriesLoop fn (fuel + 1) (w ++ (o ++ rest)) ud =
      (fn ⟨o ++ rest, o.length⟩ ud).bind fun ud => entriesLoop fn fuel (nextEntry rest) ud := by
  obtain ⟨o', rfl⟩ : ∃ o', o = '\x7b'.toUInt8 :: o' := by
    cases o with
    | nil => exact absurd hhead nofun
    | cons c o' => exact ⟨o', by rw [Option.some.inj hhead]⟩
  have hdrop : ('\x7b'.toUInt8 :: (o' ++ rest)).drop ('\x7b'.toUInt8 :: o').length = rest := by
    rw [← List.cons_append, List.drop_left]
  rw [List.cons_append] at hlen ⊢
  rw [entriesLoop, if_neg (by simp), dropWhile_spaces hw (by decide)]
  dsimp only
  rw [if_neg (by decide), if_neg (not_not_intro rfl), hlen]
  dsimp only
  rw [hdrop]
  cases fn ⟨'\x7b'.toUInt8 :: (o' ++ rest), ('\x7b'.toUInt8 :: o').length⟩ ud with
  | none => rfl
  | some ud =>
    dsimp only
    rw [if_neg hne]
    rfl

/-- The loop ends at the bracket of the array. -/
theorem entriesLoop_close {w : Bytes} (hw : ∀ c ∈ w, isspace c = true) (fuel : Nat) (tail : Bytes) (ud : σ) :
    entriesLoop fn (fuel + 1) (w ++ ']'.toUInt8 :: tail) ud = some ud := by
  rw [entriesLoop, if_neg (by simp), dropWhile_spaces hw (by decide)]
  dsimp only
  rw [if_pos rfl]

/-- One round of the loop. -/
theorem entriesLoop_cons {o : Bytes} {g : σ → Option σ} (h : Reads fn o g) (fuel : Nat) {rest : Bytes}
    (hne : rest ≠ []) (ud : σ) :
    entriesLoop fn (fuel + 1) (o ++ rest) ud = (g ud).bind fun ud =>
      entriesLoop fn fuel (if (rest.dropWhile isspace).head? = some ','.toUInt8 then (rest.dropWhile isspace).tail
        else rest.dropWhile isspace) ud := by
  have hround : entriesLoop fn (fuel + 1) ([] ++ (o ++ rest)) ud = _ :=
    entriesLoop_object h.head (h.length rest) hne (fun c hc => absurd hc List.not_mem_nil) fuel ud
  rw [h.read rest ud] at hround
  exact hround

/-- **All objects** are read in order. -/
theorem entriesLoop_text {es : List (Bytes × (σ → Option σ))} (h : ∀ e ∈ es, Reads fn e.1 e.2) {fuel : Nat}
    (hfuel : es.length < fuel) (hne : es ≠ []) (ud : σ) :
    entriesLoop fn fuel (entriesText (es.map Prod.fst)) ud = es.foldlM (fun ud e => e.2 ud) ud := by
  induction es generalizing fuel ud with
  | nil => exact absurd rfl hne
  | cons e es ih =>
    obtain ⟨fuel, rfl⟩ : ∃ m, fuel = m + 1 := ⟨fuel - 1, by rw [List.length_cons] at hfuel; omega⟩
    rw [List.length_cons] at hfuel
    have he := h e List.mem_cons_self
    rw [List.foldlM_cons]
    cases es with
    | nil =>
      show entriesLoop fn (fuel + 1) (e.1 ++ lit "]\x7d") ud = (e.2 ud).bind some
      rw [entriesLoop_cons he fuel (by decide)]
      congr 1
      funext ud
      obtain ⟨fuel, rfl⟩ : ∃ m, fuel = m + 1 := ⟨fuel - 1, by rw [List.length_nil] at hfuel; omega⟩
      rfl
    | cons e' es =>
      have hrest := ih (fun x hx => h x (List.mem_cons_of_mem e hx)) (show _ < fuel by omega) nofun
      have htext : entriesText ((e :: e' :: es).map Prod.fst) =
          e.1 ++ ','.toUInt8 :: entriesText ((e' :: es).map Prod.fst) := by
        show e.1 ++ lit "," ++ _ = _
        rw [List.append_assoc]
        rfl
      rw [htext, entriesLoop_cons he fuel (List.cons_ne_nil _ _)]
      show (e.2 ud).bind _ = (e.2 ud).bind _
      congr 1
      funext ud
      exact hrest ud

/-- The file of some objects. -/
theorem flashMoeForEachEntry_text {es : List (Bytes × (σ → Option σ))} (h : ∀ e ∈ es, Reads fn e.1 e.2)
    (hne : es ≠ []) (ud : σ) :
    flashMoeForEachEntry (manifestText (es.map Prod.fst)) fn ud = es.foldlM (fun ud e => e.2 ud) ud := by
  have hlen : ∀ os : List Bytes, os.length ≤ (entriesText os).length := by
    intro os
    induction os with
    | nil => exact Nat.zero_le _
    | cons o os ih =>
      cases os with
      | nil =>
        have hend : (lit "]\x7d").length = 2 := by decide
        show 1 ≤ (o ++ lit "]\x7d").length
        rw [List.length_append, hend]
        omega
      | cons o' os =>
        have hcomma : (lit ",").length = 1 := by decide
        show (o' :: os).length + 1 ≤ (o ++ lit "," ++ entriesText (o' :: os)).length
        rw [List.length_append, List.length_append, hcomma]
        omega
  have hentries : strstr (manifestText (es.map Prod.fst)) (lit "\"entries\"") = some 1 :=
    strstr_append (by decide) _
  have hbracket : strstr ((manifestText (es.map Prod.fst)).drop 1) (lit "[") = some 10 := by
    have hdrop : (manifestText (es.map Prod.fst)).drop 1 = lit "\"entries\":[" ++ entriesText (es.map Prod.fst) := rfl
    rw [hdrop]
    exact strstr_append (by decide) _
  have hrest : (manifestText (es.map Prod.fst)).drop (1 + 10 + 1) = entriesText (es.map Prod.fst) := rfl
  have hfuel : es.length < (manifestText (es.map Prod.fst)).length + 1 := by
    have h := hlen (es.map Prod.fst)
    unfold manifestText
    rw [List.length_map] at h
    rw [List.length_append]
    omega
  unfold flashMoeForEachEntry
  rw [hentries]
  dsimp only
  rw [hbracket]
  dsimp only
  rw [hrest]
  exact entriesLoop_text h hfuel hne ud

/-! ### What an entry says -/

/-- A text in quotation marks. -/
def quoted (x : Bytes) : Bytes := '"'.toUInt8 :: (x ++ ['"'.toUInt8])

/-- The values of an entry, as they are written. -/
structure EntryValues where
  family : Bytes
  quant : Bytes
  file : Bytes
  x : Bytes
  y : Bytes
  z : Bytes
  bytes : Bytes
  offset : Bytes
  stride : Bytes

def EntryValues.members (e : EntryValues) : List (String × Bytes) :=
  [("tensor_family", quoted e.family), ("quant_type", quoted e.quant),
    ("shape", lit "[" ++ e.x ++ lit "," ++ e.y ++ lit "," ++ e.z ++ lit "]"), ("repacked_file", quoted e.file),
    ("bytes_per_expert", e.bytes), ("repacked_offset", e.offset), ("expert_stride", e.stride),
    ("expert_major", lit "true")]

/-- Every key stands first where it is a key. -/
def KeysFirst (ms : List (String × Bytes)) : Prop :=
  (∀ i : Fin ms.length, strstr (headText (ms.take i) ++ keyPat ms[i].1) (keyPat ms[i].1) =
    some (headText (ms.take i)).length) ∧
    strstr (headText ms ++ keyPat "layer") (keyPat "layer") = some (headText ms).length

instance (ms : List (String × Bytes)) : Decidable (KeysFirst ms) := inferInstanceAs (Decidable (_ ∧ _))

instance (ds : Bytes) : Decidable (Digits ds) :=
  decidable_of_iff (ds.all isDigit = true ∧ ds ≠ [] ∧ decimal ds < UInt64.size)
    ⟨fun ⟨h1, h2, h3⟩ => ⟨List.all_eq_true.1 h1, h2, h3⟩, fun h => ⟨List.all_eq_true.2 h.digit, h.ne_nil, h.lt⟩⟩

/-- The values can be read. -/
def EntryValues.Readable (e : EntryValues) : Prop :=
  (∀ x ∈ [e.family, e.quant, e.file], ∀ c ∈ x, c ≠ '"'.toUInt8 ∧ c ≠ '\\'.toUInt8) ∧
    (∀ ds ∈ [e.x, e.y, e.z, e.bytes, e.offset, e.stride], Digits ds) ∧ KeysFirst e.members ∧ Opens e.members

instance (e : EntryValues) : Decidable e.Readable := inferInstanceAs (Decidable (_ ∧ _ ∧ _ ∧ _))

/-- What an entry does to the tables. -/
def addEntry (dir : Bytes) (e : EntryValues) (fam : Family) (type il : Nat) (ctx : ParseCtx) : Option ParseCtx :=
  ((ctx.layer il).add (joinPath dir (cstr e.file)) fam type (UInt64.ofNat (decimal e.bytes))
    (UInt64.ofNat (decimal e.offset)) (UInt64.ofNat (decimal e.stride))).map fun layer =>
      ⟨Function.update ctx.layer il layer, ctx.seenEntries + 1⟩

/-- **What is read** of an entry. -/
theorem parseEntry_text {v : Variant} {e : EntryValues} (hread : e.Readable) {fam : Family} {type : Nat}
    (hfam : flashMoeFamilyId (cstr e.family) = some fam) (htype : flashMoeQuantTypeId (cstr e.quant) = some type)
    (hshape : flashMoeExpectedShape v fam
      [UInt64.ofNat (decimal e.x), UInt64.ofNat (decimal e.y), UInt64.ofNat (decimal e.z)] = true)
    (hbytes : UInt64.ofNat (decimal e.bytes) ≠ 0) (hlayer : Digits layer) (hil : decimal layer < v.nLayer)
    (dir rest : Bytes) (ctx : ParseCtx) :
    flashMoeParseEntry v dir ⟨entryText e.members layer ++ rest, (entryText e.members layer).length⟩ ctx =
      addEntry dir e fam type (decimal layer) ctx := by
  obtain ⟨hplain, hdigits, ⟨hkeys, hlast⟩, -⟩ := hread
  have hnum : (UInt64.ofNat (decimal layer)).toNat = decimal layer := UInt64.toNat_ofNat_of_lt hlayer.lt
  -- the members in their order, each where its key stands first
  have hfamily : jsonString ⟨entryText e.members layer ++ rest, (entryText e.members layer).length⟩ "tensor_family" =
      some (cstr e.family) :=
    jsonString_entry rfl (hkeys (0 : Fin 8)) (hplain _ (by simp)) layer rest
  have hquant : jsonString ⟨entryText e.members layer ++ rest, (entryText e.members layer).length⟩ "quant_type" =
      some (cstr e.quant) :=
    jsonString_entry rfl (hkeys (1 : Fin 8)) (hplain _ (by simp)) layer rest
  have hshapes : jsonU64Array3 ⟨entryText e.members layer ++ rest, (entryText e.members layer).length⟩ "shape" =
      some _ :=
    jsonU64Array3_entry rfl (hkeys (2 : Fin 8)) (hdigits e.x (by simp)) (hdigits e.y (by simp))
      (hdigits e.z (by simp)) layer rest
  have hfile : jsonString ⟨entryText e.members layer ++ rest, (entryText e.members layer).length⟩ "repacked_file" =
      some (cstr e.file) :=
    jsonString_entry rfl (hkeys (3 : Fin 8)) (hplain _ (by simp)) layer rest
  have hlength : jsonU64 ⟨entryText e.members layer ++ rest, (entryText e.members layer).length⟩ "bytes_per_expert" =
      some _ :=
    jsonU64_entry rfl (hkeys (4 : Fin 8)) (hdigits e.bytes (by simp)) layer rest
  have hoffset : jsonU64 ⟨entryText e.members layer ++ rest, (entryText e.members layer).length⟩ "repacked_offset" =
      some _ :=
    jsonU64_entry rfl (hkeys (5 : Fin 8)) (hdigits e.offset (by simp)) layer rest
  have hstride : jsonU64 ⟨entryText e.members layer ++ rest, (entryText e.members layer).length⟩ "expert_stride" =
      some _ :=
    jsonU64_entry rfl (hkeys (6 : Fin 8)) (hdigits e.stride (by simp)) layer rest
  have hmajor : jsonBool ⟨entryText e.members layer ++ rest, (entryText e.members layer).length⟩ "expert_major" =
      some true :=
    jsonBool_entry rfl (hkeys (7 : Fin 8)) layer rest
  unfold flashMoeParseEntry
  rw [jsonU64_layer hlast hlayer, hfamily, hquant, hshapes, hfile, hlength, hoffset, hstride, hmajor]
  simp only [Option.bind_eq_bind, Option.bind_some, Option.getD_some, hfam, htype]
  rw [if_neg]
  · rw [hnum]
    unfold addEntry
    cases (ctx.layer (decimal layer)).add (joinPath dir (cstr e.file)) fam type (UInt64.ofNat (decimal e.bytes))
      (UInt64.ofNat (decimal e.offset)) (UInt64.ofNat (decimal e.stride)) <;> rfl
  · rintro (h | h | h | h)
    · rw [hnum] at h
      omega
    · exact h trivial
    · exact hbytes h
    · exact h hshape

/-! ### A stride that wraps -/

/-- The entries of a layer of the Flash model; 255 of these strides are 254 in 64 bits. -/
def wrapValues (fam : Family) : EntryValues :=
  let values (family quant x y bytes offset : String) : EntryValues :=
    ⟨lit family, lit quant, lit "x", lit x, lit y, lit "256", lit bytes, lit offset, lit "72340172838076674"⟩
  match fam with
  | .gate => values "ffn_gate_exps" "IQ2_XXS" "4096" "2048" "2162688" "0"
  | .up   => values "ffn_up_exps" "IQ2_XXS" "4096" "2048" "2162688" "2162688"
  | .down => values "ffn_down_exps" "Q2_K" "2048" "4096" "2752512" "4325376"

def wrapType (fam : Family) : Nat := if fam = .down then TENSOR_Q2_K else TENSOR_IQ2_XXS

/-- The digits of a layer. -/
def layerDigits (il : Nat) : Bytes :=
  if il < 10 then [UInt8.ofNat (0x30 + il)] else [UInt8.ofNat (0x30 + il / 10), UInt8.ofNat (0x30 + il % 10)]

/-- The entries with what each does to the tables. -/
def wrapEntry (dir : Bytes) (il : Nat) (fam : Family) : Bytes × (ParseCtx → Option ParseCtx) :=
  (entryText (wrapValues fam).members (layerDigits il), addEntry dir (wrapValues fam) fam (wrapType fam) il)

def wrapEntries (dir : Bytes) (n : Nat) : List (Bytes × (ParseCtx → Option ParseCtx)) :=
  (List.range n).flatMap fun il => families.map (wrapEntry dir il)

def wrapManifest : Bytes := manifestText ((wrapEntries [] 43).map Prod.fst)

theorem wrapValues_readable (fam : Family) : (wrapValues fam).Readable := by
  cases fam <;> decide +kernel

theorem layerDigits_spec {il : Nat} (h : il < 43) : Digits (layerDigits il) ∧ decimal (layerDigits il) = il := by
  have hall : ∀ il < 43, Digits (layerDigits il) ∧ decimal (layerDigits il) = il := by decide +kernel
  exact hall il h

theorem reads_wrapEntry (dir : Bytes) {il : Nat} (hil : il < 43) (fam : Family) :
    Reads (flashMoeParseEntry .flash dir) (wrapEntry dir il fam).1 (wrapEntry dir il fam).2 := by
  obtain ⟨hdigits, hdecimal⟩ := layerDigits_spec hil
  have hreadable := wrapValues_readable fam
  refine ⟨rfl, fun rest => objectLength_entry hreadable.2.2.2 hdigits rest, fun rest ctx => ?_⟩
  have hvalues : flashMoeFamilyId (cstr (wrapValues fam).family) = some fam ∧
      flashMoeQuantTypeId (cstr (wrapValues fam).quant) = some (wrapType fam) ∧
      flashMoeExpectedShape .flash fam [UInt64.ofNat (decimal (wrapValues fam).x),
        UInt64.ofNat (decimal (wrapValues fam).y), UInt64.ofNat (decimal (wrapValues fam).z)] = true ∧
      UInt64.ofNat (decimal (wrapValues fam).bytes) ≠ 0 := by
    cases fam <;> decide
  obtain ⟨hfam, htype, hshape, hbytes⟩ := hvalues
  have hread := parseEntry_text hreadable hfam htype hshape hbytes hdigits (hdecimal.symm ▸ hil) dir rest ctx
  rw [hdecimal] at hread
  exact hread

/-- The layer that the entries describe. -/
def wrapLayer (dir : Bytes) : LayerSidecar where
  path := some (joinPath dir (lit "x"))
  fileSize := 0
  familyOffset
    | .gate => 0
    | .up   => 2162688
    | .down => 4325376
  familyBytes fam := if fam = .down then 2752512 else 2162688
  familyType := wrapType
  expertStride := 72340172838076674
  present _ := true

/-- What an entry does to its layer. -/
def wrapAdd (dir : Bytes) (fam : Family) (layer : LayerSidecar) : Option LayerSidecar :=
  layer.add (joinPath dir (lit "x")) fam (wrapType fam) ((wrapLayer dir).familyBytes fam)
    ((wrapLayer dir).familyOffset fam) 72340172838076674

theorem addEntry_wrap (dir : Bytes) (il : Nat) (fam : Family) (ctx : ParseCtx) :
    (wrapEntry dir il fam).2 ctx = (wrapAdd dir fam (ctx.layer il)).map fun layer =>
      ⟨Function.update ctx.layer il layer, ctx.seenEntries + 1⟩ := by
  have hvalues : cstr (wrapValues fam).file = lit "x" ∧
      UInt64.ofNat (decimal (wrapValues fam).bytes) = (wrapLayer dir).familyBytes fam ∧
      UInt64.ofNat (decimal (wrapValues fam).offset) = (wrapLayer dir).familyOffset fam ∧
      UInt64.ofNat (decimal (wrapValues fam).stride) = 72340172838076674 := by
    cases fam <;> refine ⟨?_, ?_, ?_, ?_⟩ <;> rfl
  obtain ⟨hfile, hbytes, hoffset, hstride⟩ := hvalues
  show addEntry dir (wrapValues fam) fam (wrapType fam) il ctx = _
  unfold addEntry wrapAdd
  rw [hfile, hbytes, hoffset, hstride]

/-- An entry that agrees with the earlier ones. -/
theorem add_eq_some {l : LayerSidecar} {path : Bytes} {fam : Family} {type : Nat} {bytes offset stride : UInt64}
    (hpresent : l.present fam = false) (hpath : l.path = none ∨ l.path = some path)
    (hstride : l.expertStride = 0 ∨ l.expertStride = stride) :
    l.add path fam type bytes offset stride = some
      { l with
        path := some path
        familyOffset := Function.update l.familyOffset fam offset
        familyBytes := Function.update l.familyBytes fam bytes
        familyType := Function.update l.familyType fam type
        present := Function.update l.present fam true
        expertStride := if stride ≠ 0 then stride else l.expertStride } := by
  unfold LayerSidecar.add
  rw [hpresent, if_neg nofun, if_neg (not_not_intro hpath), if_neg]
  rintro ⟨-, hne, hdiff⟩
  exact hstride.elim hne hdiff

/-- The three families of a layer. -/
theorem wrapAdd_families (dir : Bytes) :
    ∃ l1 l2, wrapAdd dir .gate .zero = some l1 ∧ wrapAdd dir .up l1 = some l2 ∧
      wrapAdd dir .down l2 = some (wrapLayer dir) := by
  refine ⟨_, _, add_eq_some rfl (Or.inl rfl) (Or.inl rfl), add_eq_some rfl (Or.inr rfl) (Or.inr rfl), ?_⟩
  refine (add_eq_some rfl (Or.inr rfl) (Or.inr rfl)).trans (congrArg some ?_)
  unfold wrapLayer
  congr 1
  all_goals
    funext fam
    cases fam <;> rfl

/-- The three entries of a layer. -/
theorem foldlM_wrapLayer (dir : Bytes) (il : Nat) {ctx : ParseCtx} (hzero : ctx.layer il = .zero) :
    (families.map (wrapEntry dir il)).foldlM (fun ctx e => e.2 ctx) ctx =
      some ⟨Function.update ctx.layer il (wrapLayer dir), ctx.seenEntries + 3⟩ := by
  obtain ⟨l1, l2, h1, h2, h3⟩ := wrapAdd_families dir
  unfold families
  simp only [List.map_cons, List.map_nil, List.foldlM_cons, List.foldlM_nil, addEntry_wrap, hzero, h1, h2, h3,
    Option.map_some, Option.bind_eq_bind, Option.bind_some, Function.update_self, Function.update_idem]
  rfl

/-- **The tables** after the entries of some layers. -/
theorem foldlM_wrapEntries (dir : Bytes) (n : Nat) :
    ∃ ctx, (wrapEntries dir n).foldlM (fun ctx e => e.2 ctx) ⟨fun _ => .zero, 0⟩ = some ctx ∧
      ctx.seenEntries = n * 3 ∧ ∀ il, ctx.layer il = if il < n then wrapLayer dir else .zero := by
  induction n with
  | zero => exact ⟨_, rfl, rfl, fun il => rfl⟩
  | succ n ih =>
    obtain ⟨ctx, hctx, hseen, hlayer⟩ := ih
    have hcat : wrapEntries dir (n + 1) = wrapEntries dir n ++ families.map (wrapEntry dir n) := by
      unfold wrapEntries
      rw [List.range_succ, List.flatMap_append, List.flatMap_singleton]
    have hzero : ctx.layer n = .zero := by
      rw [hlayer, if_neg (Nat.lt_irrefl n)]
    refine ⟨⟨Function.update ctx.layer n (wrapLayer dir), ctx.seenEntries + 3⟩, ?_, ?_, fun il => ?_⟩
    · rw [hcat, List.foldlM_append, hctx]
      exact foldlM_wrapLayer dir n hzero
    · show ctx.seenEntries + 3 = (n + 1) * 3
      omega
    · show Function.update ctx.layer n (wrapLayer dir) il = _
      by_cases hil : il = n
      · rw [hil, Function.update_self, if_pos (Nat.lt_succ_self n)]
      · rw [Function.update_of_ne hil, hlayer]
        exact if_congr (by omega) rfl rfl

/-- **The manifest** is accepted. -/
theorem parseManifest_wrap (dir : Bytes) :
    ∃ m, parseManifest .flash dir wrapManifest = some m ∧ ∀ il < 43, m il = wrapLayer dir := by
  have htexts : (wrapEntries [] 43).map Prod.fst = (wrapEntries dir 43).map Prod.fst := by
    unfold wrapEntries
    rw [List.map_flatMap, List.map_flatMap]
    refine congrArg (fun f : Nat → List Bytes => (List.range 43).flatMap f) (funext fun il => ?_)
    rw [List.map_map, List.map_map]
    exact List.map_congr_left fun fam _ => rfl
  have hreads : ∀ e ∈ wrapEntries dir 43, Reads (flashMoeParseEntry .flash dir) e.1 e.2 := by
    intro e he
    obtain ⟨il, hil, he⟩ := List.mem_flatMap.mp he
    obtain ⟨fam, -, rfl⟩ := List.mem_map.mp he
    exact reads_wrapEntry dir (List.mem_range.mp hil) fam
  obtain ⟨ctx, hctx, hseen, hlayer⟩ := foldlM_wrapEntries dir 43
  have hne : wrapEntries dir 43 ≠ [] := by
    intro hnil
    rw [hnil] at hctx
    obtain rfl := Option.some.inj hctx
    exact absurd hseen (by decide)
  have hread := flashMoeForEachEntry_text hreads hne ⟨fun _ => .zero, 0⟩
  rw [← htexts, hctx] at hread
  exact ⟨ctx.layer, parseManifest_of hread hseen, fun il hil => by rw [hlayer, if_pos hil]⟩

/-- Layer files of eight mebibytes. -/
def wrapEnv : OpenEnv where
  readable _ := true
  readFile _ := some wrapManifest
  stat _ := some 8388608
  mmap _ := true
  activeExpertUsed := 6
  expertMmap := false
  directMmapAutoDisabled := false

def wrapOpened : LayerSidecar := { (wrapLayer (lit "d")).withStride with fileSize := 8388608 }

/-- A layer of the manifest is opened, whether it is mapped or not. -/
theorem openLayer_wrap (mmap : Bool) : openLayer .flash wrapEnv mmap (wrapLayer (lit "d")) = some wrapOpened := by
  have hok : families.all (familyOk .flash (wrapLayer (lit "d"))) = true := by decide +kernel
  have htypes : (wrapLayer (lit "d")).familyType .gate = (wrapLayer (lit "d")).familyType .up := by decide
  have hmin : (wrapLayer (lit "d")).minStride = 7077888 := by decide +kernel
  have hstride : (wrapLayer (lit "d")).withStride.expertStride = 72340172838076674 := by decide +kernel
  have hstat : (wrapLayer (lit "d")).path.bind wrapEnv.stat = some 8388608 := rfl
  have hmap : ¬ (mmap = true ∧ ((8388608 : UInt64) = 0 ∨ ¬ (wrapLayer (lit "d")).path.any wrapEnv.mmap = true)) := by
    rintro ⟨-, h | h⟩
    · exact absurd h (by decide)
    · exact h rfl
  unfold openLayer
  rw [if_neg (not_not_intro hok), if_neg (not_not_intro htypes), hmin, hstride, if_neg (by decide), hstat]
  dsimp only
  rw [if_neg (by decide +kernel), if_neg hmap]
  rfl

theorem manifest_wrap : manifest .flash wrapEnv (lit "d") = parseManifest .flash (lit "d") wrapManifest := by
  have hdir : sidecarDir wrapEnv (lit "d") = lit "d" := if_pos rfl
  have hread : wrapEnv.readFile (joinPath (lit "d") (lit "manifest.json")) = some wrapManifest := rfl
  unfold manifest
  rw [hdir, hread, Option.bind_some]

/-- **The sidecar** is opened. -/
theorem sidecarOpen_wrap : ∃ m s, manifest .flash wrapEnv (lit "d") = some m ∧
    sidecarOpen .flash wrapEnv (lit "d") 6 = some s ∧ ∀ il < 43, s.layer il = wrapOpened := by
  obtain ⟨m, hm, hlayer⟩ := parseManifest_wrap (lit "d")
  rw [← manifest_wrap] at hm
  have hopen : ∀ mmap, ∀ il ∈ List.range 43, openLayer .flash wrapEnv mmap (m il) = some wrapOpened := by
    intro mmap il hil
    rw [hlayer il (List.mem_range.mp hil)]
    exact openLayer_wrap mmap
  obtain ⟨layer, hlayers⟩ := openLayers_of_forall List.nodup_range fun il hil =>
    ⟨wrapOpened, hopen (wrapEnv.expertMmap || directMmapAuto wrapEnv 6 (m 0)) il hil⟩
  have hspec := (openLayers_spec List.nodup_range hlayers).1
  refine ⟨m, _, hm, sidecarOpen_of_layers (by decide) (by decide) hm hlayers, fun il hil => ?_⟩
  have hmem := List.mem_range.mpr hil
  exact Option.some.inj ((hspec il hmem).symm.trans (hopen _ il hmem))

/-! ### An open sidecar -/

/-- **An open sidecar** is bounded just if its manifest fits, in every layer. -/
theorem sidecar_bounded_iff {v : Variant} {env : OpenEnv} {dir : Bytes} {slotBank : Nat} {s : SidecarFiles}
    {m : Nat → LayerSidecar} (hm : manifest v env dir = some m)
    (h : sidecarOpen v env dir slotBank = some s) : Bounded v s ↔ ∀ il < v.nLayer, (m il).Fits v := by
  constructor
  · intro hb il hil
    obtain ⟨mmap, hopen⟩ := sidecarOpen_layer hm h hil
    exact (bounded_layer_iff hopen).mp (hb il hil)
  · intro hfits il hil
    obtain ⟨mmap, hopen⟩ := sidecarOpen_layer hm h hil
    exact (bounded_layer_iff hopen).mpr (hfits il hil)

/-- The sidecar whose stride wraps. -/
theorem sidecar_bounded_iff_wrap : ∃ m s, manifest .flash wrapEnv (lit "d") = some m ∧
    sidecarOpen .flash wrapEnv (lit "d") 6 = some s ∧
      (Bounded .flash s ↔ ∀ il < Variant.flash.nLayer, (m il).Fits .flash) := by
  obtain ⟨m, s, hm, hs, -⟩ := sidecarOpen_wrap
  exact ⟨m, s, hm, hs, sidecar_bounded_iff hm hs⟩

/-- It is opened, and its last record is far behind its files. -/
theorem sidecar_not_bounded : ∃ s, sidecarOpen .flash wrapEnv (lit "d") 6 = some s ∧ ¬ Bounded .flash s := by
  obtain ⟨m, s, -, hs, hlayer⟩ := sidecarOpen_wrap
  refine ⟨s, hs, fun hb => ?_⟩
  have hend := ((hb 0 (by decide)).1 255 (by decide) .gate).2.1
  rw [hlayer 0 (by decide)] at hend
  exact absurd hend (by decide +kernel)

end DS4.FlashMoe
