import DS4.Server.Text
import Mathlib.Data.List.TakeWhile

namespace DS4.Server.Http

/-!
# Server — reading a request

A request is read with `recv` into a growing buffer, first up to the end of its header and then up to the length the
header gives.  What `recv` returns at a time is up to the network.

* `headerEnd`, `requestLine`, `contentLength` — what the buffer says.
* `readHttpRequest` — the request, for one way to split the stream.
* `Steady` — what keeps the reads out of the outcome: the limit, the two kinds of blank lines, a content length
  without a value.
* `bodyAt` — what is decided when the header is found in so many bytes; `steadyAt_iff`.
* `http_framing_iff` — every split gives the same outcome just for steady streams.
-/

open DS4.Lib (findSub findSub_append findSub_eq_some_iff findSub_length_le findSub_take_iff)

/-! ### The header -/

/-- `header_end`: the blank line of CRLF lines, else the one of LF lines. -/
def headerEnd (p : Bytes) : Option Nat :=
  match findSub (lit "\r\n\r\n") p with
  | some i => some (i + 4)
  | none   => (findSub (lit "\n\n") p).map (· + 2)

/-- `isdigit` -/
def isDigit (c : UInt8) : Bool := decide (0x30 ≤ c ∧ c ≤ 0x39)

/-- The value of the digits at the start of a text. -/
def digitsValue (s : Bytes) : Int :=
  (s.takeWhile isDigit).foldl (fun v c => 10 * v + (c.toNat - 0x30 : Nat)) 0

def LONG_MAX : Int := 0x7fffffffffffffff

/-- `strtol(s, NULL, 10)` -/
def strtol (s : Bytes) : Int :=
  let v :=
    match s.dropWhile isspace with
    | []     => 0
    | c :: t =>
      if c = '-'.toUInt8 then - digitsValue t
      else if c = '+'.toUInt8 then digitsValue t
      else digitsValue (c :: t)
  max (min v LONG_MAX) (- LONG_MAX - 1)

/-- `tolower` -/
def tolower (c : UInt8) : UInt8 := if 0x41 ≤ c ∧ c ≤ 0x5a then c + 0x20 else c

/-- A line without the CR at its end. -/
def chomp (line : Bytes) : Bytes := if line.getLast? = some '\r'.toUInt8 then line.dropLast else line

/-- The loop of `content_length` at `p`, the rest of the header: where the value starts. -/
def lengthValue : Nat → Bytes → Option Nat
  | 0, _        => none
  | fuel + 1, p =>
    if p = [] then none
    else
      let line := p.takeWhile (fun c => c ≠ '\n'.toUInt8)
      let text := chomp line
      if 15 ≤ text.length ∧ (text.take 15).map tolower = lit "content-length:" then
        some (15 + ((text.drop 15).takeWhile isspace).length)
      else (lengthValue fuel (p.drop (line.length + 1))).map (line.length + 1 + ·)

/-- `content_length` of the header that ends at `hend`.  `strtol` reads the buffer, which may go on behind it. -/
def contentLength (buf : Bytes) (hend : Nat) : Int :=
  match lengthValue (hend + 1) (buf.take hend) with
  | none   => 0
  | some v => strtol (buf.drop v)

/-- `sscanf(line, "%7s %255s", method, path)`, and the path up to `?`. -/
def requestLine (buf : Bytes) : Option (Bytes × Bytes) :=
  let line := cstr ((buf.takeWhile (fun c => c ≠ '\n'.toUInt8)).take 511)
  let s := line.dropWhile isspace
  let method := (s.takeWhile (fun c => !isspace c)).take 7
  let path := (((s.drop method.length).dropWhile isspace).takeWhile (fun c => !isspace c)).take 255
  if method = [] ∨ path = [] then none else some (method, path.takeWhile (fun c => c ≠ '?'.toUInt8))

/-! ### Reading -/

/-- `http_request` -/
structure HttpRequest where
  method : Bytes
  path : Bytes
  body : Bytes
  deriving DecidableEq

def maxHeader : Nat := 64 * 1024
def maxBody : Int := 64 * 1024 * 1024

/-- How many bytes there are after the `k`-th `recv`, of at most `cap` bytes; at the end of the stream no more. -/
def recv (splits : Nat → Nat) (stream : Bytes) (cap k n : Nat) : Nat :=
  n + min (min cap (splits k + 1)) (stream.length - n)

/-- The loop for the header, with `n` bytes in the buffer after `k` reads. -/
def headerLoop (splits : Nat → Nat) (stream : Bytes) : Nat → Nat → Nat → Option (Nat × Nat × Nat)
  | 0, _, _        => none
  | fuel + 1, k, n =>
    if maxHeader ≤ n then none
    else
      let n' := recv splits stream 4096 k n
      if n' = n then none
      else
        match headerEnd (stream.take n') with
        | some hend => some (k + 1, n', hend)
        | none      => headerLoop splits stream fuel (k + 1) n'

/-- The loop for the body: do `target` bytes come? -/
def bodyLoop (splits : Nat → Nat) (stream : Bytes) (target : Nat) : Nat → Nat → Nat → Bool
  | 0, _, _        => false
  | fuel + 1, k, n =>
    if target ≤ n then true
    else
      let n' := recv splits stream 8192 k n
      if n' = n then false else bodyLoop splits stream target fuel (k + 1) n'

/-- `read_http_request` -/
def readHttpRequest (splits : Nat → Nat) (stream : Bytes) : Option HttpRequest :=
  match headerLoop splits stream (stream.length + 1) 0 0 with
  | none              => none
  | some (k, n, hend) =>
    match requestLine (stream.take n) with
    | none                => none
    | some (method, path) =>
      let clen := contentLength (stream.take n) hend
      if clen < 0 ∨ maxBody < clen then none
      else if bodyLoop splits stream (hend + clen.toNat) (stream.length + 1) k n then
        some ⟨method, path, (stream.drop hend).take clen.toNat⟩
      else none

/-! ### Where the reads matter -/

/-- The end of the first blank line. -/
def firstEnd (stream : Bytes) : Option Nat :=
  (List.range (stream.length + 1)).find? fun n => (headerEnd (stream.take n)).isSome

/-- The end of the first blank line of CRLF lines. -/
def crlfEnd (stream : Bytes) : Option Nat := (findSub (lit "\r\n\r\n") stream).map (· + 4)

/-- The blank line that counts with `n` bytes in the buffer: the one at `e`, until one of CRLF lines is there. -/
def endAt (stream : Bytes) (e n : Nat) : Nat :=
  match crlfEnd stream with
  | some c => if c ≤ n then c else e
  | none   => e

/-- The read that completes a blank line at `e` starts before it, and before the limit. -/
def window (stream : Bytes) (e : Nat) : Nat := min stream.length (min (e - 1) (maxHeader - 1) + 4096)

/-- The body behind a header, of a length the header gives. -/
def framed (stream : Bytes) (hend : Nat) (clen : Int) : Option Bytes :=
  if clen < 0 ∨ maxBody < clen ∨ stream.length < hend + clen.toNat then none
  else some ((stream.drop hend).take clen.toNat)

/-- The body by what the header itself says. -/
def declared (stream : Bytes) (hend : Nat) : Option Bytes :=
  framed stream hend (contentLength (stream.take hend) hend)

/-- A content length without a value, and only white space from there to the end of the header. -/
def Blank (stream : Bytes) (hend : Nat) : Prop :=
  ∃ v, lengthValue (hend + 1) (stream.take hend) = some v ∧ ∀ c ∈ (stream.take hend).drop v, isspace c = true

/-- What keeps the reads out of the outcome, for a first blank line that ends at `e`. -/
structure SteadyAt (stream : Bytes) (e : Nat) : Prop where
  /-- It ends before the limit, or no read can reach its end, or it gives no body. -/
  limit : maxHeader < e → e ≤ window stream e → declared stream e = none
  /-- A blank line of CRLF lines that the same read may complete gives the same body. -/
  crlf : ∀ c, crlfEnd stream = some c → e ≤ c → c ≤ window stream e → declared stream c = declared stream e
  /-- Where `strtol` runs into the bytes behind the header, it finds no length there that gives another body. -/
  blank : ∀ n, e ≤ n → n ≤ window stream e → Blank stream (endAt stream e n) →
    framed stream (endAt stream e n) (strtol ((stream.take n).drop (endAt stream e n))) =
      framed stream (endAt stream e n) 0

/-- There is no blank line, or the request line is malformed, or the first blank line does not depend on the reads. -/
def Steady (stream : Bytes) : Prop :=
  ∀ e, firstEnd stream = some e → requestLine stream = none ∨ SteadyAt stream e

variable {stream : Bytes} {splits : Nat → Nat}

/-! ### Blank lines -/

theorem headerEnd_isSome_iff {p : Bytes} :
    (headerEnd p).isSome ↔ (findSub (lit "\r\n\r\n") p).isSome ∨ (findSub (lit "\n\n") p).isSome := by
  unfold headerEnd
  cases findSub (lit "\r\n\r\n") p <;> simp

/-- More bytes do not take a blank line away. -/
theorem headerEnd_mono {n m : Nat} (hnm : n ≤ m) (h : (headerEnd (stream.take n)).isSome) :
    (headerEnd (stream.take m)).isSome := by
  have hsplit : stream.take m = stream.take n ++ (stream.take m).drop n := by
    conv_lhs => rw [← List.take_append_drop n (stream.take m)]
    rw [List.take_take, Nat.min_eq_left hnm]
  have hfind : ∀ pat : Bytes, (findSub pat (stream.take n)).isSome → (findSub pat (stream.take m)).isSome := by
    intro pat hpat
    obtain ⟨i, hi⟩ := Option.isSome_iff_exists.1 hpat
    rw [hsplit, findSub_append hi]
    rfl
  rw [headerEnd_isSome_iff] at h ⊢
  exact h.imp (hfind _) (hfind _)

theorem firstEnd_spec {e : Nat} (h : firstEnd stream = some e) :
    e ≤ stream.length ∧ ∀ n, (headerEnd (stream.take n)).isSome ↔ e ≤ n := by
  obtain ⟨hsome, hmem, hmin⟩ := List.find?_range_eq_some.1 h
  have hle := List.mem_range.1 hmem
  refine ⟨Nat.le_of_lt_succ hle, fun n => ⟨fun hn => ?_, fun hn => headerEnd_mono hn hsome⟩⟩
  by_contra hlt
  have := hmin n (Nat.not_le.1 hlt)
  rw [hn] at this
  exact absurd this (by decide)

theorem firstEnd_none (h : firstEnd stream = none) (n : Nat) : headerEnd (stream.take n) = none := by
  by_contra hne
  have hsome := Option.isSome_iff_ne_none.2 hne
  have hall := List.find?_eq_none.1 h
  rcases Nat.lt_or_ge n (stream.length + 1) with hlt | hge
  · exact hall n (List.mem_range.2 hlt) hsome
  · refine hall stream.length (List.mem_range.2 (Nat.lt_succ_self _)) ?_
    rwa [List.take_of_length_le (Nat.le_of_succ_le hge), ← List.take_of_length_le (Nat.le_refl stream.length)] at hsome

theorem firstEnd_pos {e : Nat} (h : firstEnd stream = some e) : 0 < e := by
  rcases Nat.eq_zero_or_pos e with rfl | hpos
  · have hsome := ((firstEnd_spec h).2 0).2 (Nat.le_refl 0)
    rw [List.take_zero] at hsome
    exact absurd hsome (by decide)
  · exact hpos

/-- The request line ends in the header. -/
theorem requestLine_take {n : Nat} (h : (headerEnd (stream.take n)).isSome) :
    requestLine (stream.take n) = requestLine stream := by
  have hnl : '\n'.toUInt8 ∈ stream.take n := by
    have hfind : ∀ {pat : Bytes}, '\n'.toUInt8 ∈ pat → (findSub pat (stream.take n)).isSome →
        '\n'.toUInt8 ∈ stream.take n := by
      intro pat hpat hsome
      obtain ⟨i, hi⟩ := Option.isSome_iff_exists.1 hsome
      obtain ⟨-, hstart, -⟩ := (findSub_eq_some_iff).1 hi
      exact List.mem_of_mem_drop (hstart.subset hpat)
    rcases (headerEnd_isSome_iff).1 h with h | h
    · exact hfind (by decide) h
    · exact hfind (by decide) h
  have hline : (stream.take n).takeWhile (fun c => c ≠ '\n'.toUInt8) =
      stream.takeWhile (fun c => c ≠ '\n'.toUInt8) := by
    conv_rhs => rw [← List.take_append_drop n stream, List.takeWhile_append]
    rw [if_neg]
    intro hlen
    rw [← (List.takeWhile_prefix _).eq_of_length hlen] at hnl
    exact absurd (List.mem_takeWhile_imp hnl) (by decide)
  unfold requestLine
  rw [hline]

/-! ### The loops -/

theorem recv_eq_iff {cap k n : Nat} (hcap : 0 < cap) (hn : n ≤ stream.length) :
    recv splits stream cap k n = n ↔ n = stream.length := by
  unfold recv
  omega

theorem bodyLoop_eq {target fuel k n : Nat} (hn : n ≤ stream.length) (hfuel : stream.length - n < fuel) :
    bodyLoop splits stream target fuel k n = decide (target ≤ stream.length) := by
  induction fuel generalizing k n with
  | zero => omega
  | succ fuel ih =>
    rw [bodyLoop]
    dsimp only
    split_ifs with hdone heof
    · exact (decide_eq_true (Nat.le_trans hdone hn)).symm
    · rw [recv_eq_iff (by decide) hn] at heof
      exact (decide_eq_false (by omega)).symm
    · rw [recv_eq_iff (by decide) hn] at heof
      refine ih ?_ ?_
      · unfold recv
        omega
      · unfold recv
        omega

/-- Where the loop for the header ends: in the window, and nowhere only where the first blank line is behind the
    limit. -/
theorem headerLoop_spec {e : Nat} (he : firstEnd stream = some e) {fuel k n : Nat} (hn : n < e)
    (hfuel : stream.length - n < fuel) :
    (headerLoop splits stream fuel k n = none ∧ maxHeader < e) ∨
      ∃ k' n' hend, headerLoop splits stream fuel k n = some (k', n', hend) ∧ e ≤ n' ∧ n' ≤ window stream e ∧
        headerEnd (stream.take n') = some hend := by
  obtain ⟨hle, hends⟩ := firstEnd_spec he
  induction fuel generalizing k n with
  | zero => omega
  | succ fuel ih =>
    have hnle : n ≤ stream.length := by omega
    rw [headerLoop]
    dsimp only
    split_ifs with hlimit heof
    · exact Or.inl ⟨rfl, by omega⟩
    · rw [recv_eq_iff (by decide) hnle] at heof
      omega
    · rw [recv_eq_iff (by decide) hnle] at heof
      have hgrow : n < recv splits stream 4096 k n ∧ recv splits stream 4096 k n ≤ min stream.length (n + 4096) := by
        unfold recv
        omega
      cases hend : headerEnd (stream.take (recv splits stream 4096 k n)) with
      | some h =>
        have hfound := (hends (recv splits stream 4096 k n)).1 (by rw [hend]; rfl)
        refine Or.inr ⟨_, _, h, rfl, hfound, ?_, hend⟩
        unfold window
        omega
      | none =>
        have hnot : ¬ e ≤ recv splits stream 4096 k n := by
          rw [← hends, hend]
          decide
        exact ih (Nat.not_le.1 hnot) (by omega)

theorem headerLoop_none (h : firstEnd stream = none) (fuel k n : Nat) : headerLoop splits stream fuel k n = none := by
  induction fuel generalizing k n with
  | zero => rfl
  | succ fuel ih =>
    rw [headerLoop]
    dsimp only
    rw [firstEnd_none h]
    split_ifs
    · rfl
    · rfl
    · exact ih _ _

/-! ### Splits -/

/-- Single bytes up to `start`, and then all up to `n`. -/
def splitAt (start n : Nat) : Nat → Nat := fun k => if k < start then 0 else n - start - 1

/-- Single bytes before the first blank line. -/
theorem headerLoop_single {e : Nat} (he : firstEnd stream = some e) {d j start fuel : Nat} (hj : j + d = start)
    (hstart : start < e) (hlimit : start ≤ maxHeader) (hsplits : ∀ k < start, splits k = 0) :
    headerLoop splits stream (fuel + d) j j = headerLoop splits stream fuel start start := by
  obtain ⟨hle, hends⟩ := firstEnd_spec he
  induction d generalizing j with
  | zero =>
    obtain rfl : j = start := hj
    rfl
  | succ d ih =>
    have hnext : recv splits stream 4096 j j = j + 1 := by
      unfold recv
      rw [hsplits j (by omega)]
      omega
    have hnone : headerEnd (stream.take (j + 1)) = none :=
      Option.not_isSome_iff_eq_none.1 (mt (hends (j + 1)).1 (by omega))
    rw [← Nat.add_assoc, headerLoop, if_neg (by omega)]
    dsimp only
    rw [hnext, if_neg (by omega), hnone]
    exact ih (by omega)

/-- Every place in the window is where the loop ends for some split. -/
theorem exists_split {e n : Nat} (he : firstEnd stream = some e) (hen : e ≤ n) (hn : n ≤ window stream e) :
    ∃ splits k hend, headerLoop splits stream (stream.length + 1) 0 0 = some (k, n, hend) ∧
      headerEnd (stream.take n) = some hend := by
  obtain ⟨hle, hends⟩ := firstEnd_spec he
  have hpos := firstEnd_pos he
  have hmax : 0 < maxHeader := by decide
  unfold window at hn
  obtain ⟨start, hstart⟩ : ∃ start, start = min (e - 1) (maxHeader - 1) := ⟨_, rfl⟩
  rw [← hstart] at hn
  obtain ⟨hend, hsome⟩ := Option.isSome_iff_exists.1 ((hends n).2 hen)
  refine ⟨splitAt start n, start + 1, hend, ?_, hsome⟩
  have hfuel : stream.length + 1 = (stream.length - start) + 1 + start := by omega
  have hnext : recv (splitAt start n) stream 4096 start start = n := by
    unfold recv splitAt
    rw [if_neg (Nat.lt_irrefl start)]
    omega
  have hsingle : ∀ k < start, splitAt start n k = 0 := fun k hk => if_pos hk
  rw [hfuel, headerLoop_single he (Nat.zero_add start) (by omega) (by omega) hsingle, headerLoop, if_neg (by omega)]
  dsimp only
  rw [hnext, if_neg (by omega), hsome]

/-- A blank line behind the limit is not found in single bytes. -/
theorem headerLoop_limit {e : Nat} (he : firstEnd stream = some e) (hlimit : maxHeader < e) :
    headerLoop (fun _ => 0) stream (stream.length + 1) 0 0 = none := by
  have hle := (firstEnd_spec he).1
  have hfuel : stream.length + 1 = (stream.length - maxHeader) + 1 + maxHeader := by omega
  rw [hfuel, headerLoop_single he (Nat.zero_add maxHeader) hlimit (Nat.le_refl _) fun _ _ => rfl, headerLoop,
    if_pos (Nat.le_refl _)]

/-! ### The content length -/

theorem digitsValue_append {s : Bytes} (h : '\n'.toUInt8 ∈ s) (r : Bytes) : digitsValue (s ++ r) = digitsValue s := by
  have hstop : (s.takeWhile isDigit).length ≠ s.length := by
    intro hlen
    rw [← (List.takeWhile_prefix _).eq_of_length hlen] at h
    exact absurd (List.mem_takeWhile_imp h) (by decide)
  unfold digitsValue
  rw [List.takeWhile_append, if_neg hstop]

/-- White space in front is skipped. -/
theorem strtol_append_of_space {u : Bytes} (h : ∀ c ∈ u, isspace c = true) (r : Bytes) :
    strtol (u ++ r) = strtol r := by
  unfold strtol
  rw [List.dropWhile_append, List.dropWhile_eq_nil_iff.2 h]
  rfl

/-- A number ends at the end of its line. -/
theorem strtol_append {u : Bytes} (hlast : '\n'.toUInt8 ∈ u.getLast?) (h : ¬ ∀ c ∈ u, isspace c = true) (r : Bytes) :
    strtol (u ++ r) = strtol u := by
  rw [← List.dropWhile_eq_nil_iff] at h
  have hdrop : (u ++ r).dropWhile isspace = u.dropWhile isspace ++ r := by
    rw [List.dropWhile_append, if_neg (by simpa using h)]
  obtain ⟨c, t, hu⟩ := List.exists_cons_of_ne_nil h
  have hlast' : '\n'.toUInt8 ∈ (c :: t).getLast? := by
    rw [← hu]
    obtain ⟨w, hw⟩ := List.dropWhile_suffix (l := u) isspace
    rw [← hw, List.getLast?_append, Option.mem_def, hu] at hlast
    rw [hu]
    simpa using hlast
  have hc : isspace c = false := by
    have hhead := List.head_dropWhile_not (p := isspace) (l := u) h
    simpa [hu] using hhead
  have hmem : '\n'.toUInt8 ∈ t := by
    rcases List.mem_cons.1 (List.mem_of_getLast? hlast') with heq | hmem
    · rw [← heq] at hc
      exact absurd hc (by decide)
    · exact hmem
  unfold strtol
  rw [hdrop, hu, List.cons_append]
  dsimp only
  rw [← List.cons_append, digitsValue_append hmem, digitsValue_append (List.mem_cons_of_mem c hmem)]

theorem chomp_length_le (line : Bytes) : (chomp line).length ≤ line.length := by
  unfold chomp
  split_ifs
  · rw [List.length_dropLast]
    omega
  · exact Nat.le_refl _

theorem lengthValue_le {fuel v : Nat} {p : Bytes} (h : lengthValue fuel p = some v) : v ≤ p.length := by
  induction fuel generalizing p v with
  | zero => cases h
  | succ fuel ih =>
    rw [lengthValue] at h
    dsimp only at h
    have hline : (p.takeWhile (fun c => c ≠ '\n'.toUInt8)).length ≤ p.length := (List.takeWhile_prefix _).length_le
    have hchomp := chomp_length_le (p.takeWhile (fun c => c ≠ '\n'.toUInt8))
    split_ifs at h with hp htext
    · have hv := Option.some.inj h
      have hskip := ((List.takeWhile_prefix isspace).length_le :
        (((chomp (p.takeWhile (fun c => c ≠ '\n'.toUInt8))).drop 15).takeWhile isspace).length ≤ _)
      rw [List.length_drop] at hskip
      omega
    · obtain ⟨w, hw, hv⟩ := Option.map_eq_some_iff.1 h
      have hle := ih hw
      have hrest : p.drop ((p.takeWhile (fun c => c ≠ '\n'.toUInt8)).length + 1) ≠ [] := by
        intro hnil
        rw [hnil] at hw
        cases fuel <;> cases hw
      have hpos := List.length_pos_iff.2 hrest
      rw [List.length_drop] at hle hpos
      omega

/-- A header ends with a line. -/
theorem getLast?_header {n hend : Nat} (h : headerEnd (stream.take n) = some hend) :
    hend ≤ n ∧ hend ≤ stream.length ∧ '\n'.toUInt8 ∈ (stream.take hend).getLast? := by
  have hfind : ∀ {pat : Bytes} {i : Nat}, '\n'.toUInt8 ∈ pat.getLast? → findSub pat (stream.take n) = some i →
      i + pat.length ≤ n ∧ i + pat.length ≤ stream.length ∧
        '\n'.toUInt8 ∈ (stream.take (i + pat.length)).getLast? := by
    intro pat i hlast hi
    have hlen := findSub_length_le hi
    rw [List.length_take] at hlen
    obtain ⟨hs, hn⟩ := (findSub_take_iff).1 hi
    obtain ⟨-, ⟨r, hr⟩, -⟩ := (findSub_eq_some_iff).1 hs
    refine ⟨by omega, by omega, ?_⟩
    rw [List.take_add, ← hr, List.take_left' rfl, List.getLast?_append]
    rw [Option.mem_def] at hlast ⊢
    rw [hlast]
    rfl
  unfold headerEnd at h
  cases hcrlf : findSub (lit "\r\n\r\n") (stream.take n) with
  | some i =>
    rw [hcrlf] at h
    obtain rfl := Option.some.inj h
    exact hfind (by decide) hcrlf
  | none =>
    rw [hcrlf] at h
    obtain ⟨i, hi, rfl⟩ := Option.map_eq_some_iff.1 h
    exact hfind (by decide) hi

/-- Only for a blank value do the bytes behind the header matter. -/
theorem contentLength_take {n hend : Nat} (h : headerEnd (stream.take n) = some hend) :
    (Blank stream hend → contentLength (stream.take n) hend = strtol ((stream.take n).drop hend) ∧
        contentLength (stream.take hend) hend = 0) ∧
      (¬ Blank stream hend → contentLength (stream.take n) hend = contentLength (stream.take hend) hend) := by
  obtain ⟨hn, hlen, hlast⟩ := getLast?_header h
  have htake : (stream.take n).take hend = stream.take hend := by rw [List.take_take, Nat.min_eq_left hn]
  have htake' : (stream.take hend).take hend = stream.take hend := by rw [List.take_take, Nat.min_self]
  unfold contentLength
  rw [htake, htake']
  cases hv : lengthValue (hend + 1) (stream.take hend) with
  | none => exact ⟨fun ⟨_, hv', _⟩ => (nomatch hv.symm.trans hv'), fun _ => rfl⟩
  | some v =>
    dsimp only
    have hle := lengthValue_le hv
    have hsplit : (stream.take n).drop v = (stream.take hend).drop v ++ (stream.take n).drop hend := by
      rw [← htake, ← List.drop_append_of_le_length (by rwa [htake]), List.take_append_drop]
    rw [hsplit]
    constructor
    · rintro ⟨v', hv', hspace⟩
      obtain rfl : v = v' := Option.some.inj (hv.symm.trans hv')
      refine ⟨strtol_append_of_space hspace _, ?_⟩
      have hnil := strtol_append_of_space hspace []
      rw [List.append_nil] at hnil
      exact hnil
    · intro hblank
      have hspace : ¬ ∀ c ∈ (stream.take hend).drop v, isspace c = true := fun hall => hblank ⟨v, hv, hall⟩
      refine strtol_append ?_ hspace _
      rw [List.getLast?_drop]
      rw [if_neg]
      · exact hlast
      · intro hge
        apply hspace
        rw [List.drop_of_length_le hge]
        intro c hc
        cases hc

/-! ### Which blank line counts -/

theorem endAt_le {e n : Nat} (he : e ≤ n) : endAt stream e n ≤ n := by
  unfold endAt
  cases crlfEnd stream with
  | none => exact he
  | some c =>
    dsimp only
    split_ifs with hc
    · exact hc
    · exact he

theorem headerEnd_take {e n : Nat} (he : firstEnd stream = some e) (hn : e ≤ n) :
    headerEnd (stream.take n) = some (endAt stream e n) := by
  obtain ⟨hle, hends⟩ := firstEnd_spec he
  unfold endAt crlfEnd
  have hcrlf : ∀ m i, findSub (lit "\r\n\r\n") (stream.take m) = some i ↔
      findSub (lit "\r\n\r\n") stream = some i ∧ i + 4 ≤ m := fun m i => findSub_take_iff
  cases hc : findSub (lit "\r\n\r\n") (stream.take n) with
  | some i =>
    obtain ⟨hs, hi⟩ := (hcrlf n i).1 hc
    unfold headerEnd
    rw [hc, hs]
    dsimp only [Option.map_some]
    rw [if_pos hi]
  | none =>
    have hnot : ∀ i, findSub (lit "\r\n\r\n") stream = some i → ¬ i + 4 ≤ n := by
      intro i hs hi
      exact nomatch hc.symm.trans ((hcrlf n i).2 ⟨hs, hi⟩)
    have hend : headerEnd (stream.take n) = some e := by
      have hsome := (hends n).2 hn
      have hsome' := (hends e).2 (Nat.le_refl e)
      rw [headerEnd_isSome_iff] at hsome'
      unfold headerEnd at hsome ⊢
      rw [hc] at hsome ⊢
      obtain ⟨l, hl⟩ := Option.isSome_iff_exists.1 (Option.isSome_map.symm.trans hsome)
      rw [hl]
      obtain ⟨hs, hln⟩ := (findSub_take_iff).1 hl
      -- the first blank line is this one
      have hge : e ≤ l + 2 := by
        refine (hends (l + 2)).1 ((headerEnd_isSome_iff).2 (Or.inr ?_))
        rw [(findSub_take_iff (n := l + 2)).2 ⟨hs, Nat.le_refl _⟩]
        rfl
      rcases hsome' with hsome' | hsome'
      · obtain ⟨i, hi⟩ := Option.isSome_iff_exists.1 hsome'
        obtain ⟨hi, hie⟩ := (hcrlf e i).1 hi
        exact absurd (Nat.le_trans hie hn) (hnot i hi)
      · obtain ⟨l', hl'⟩ := Option.isSome_iff_exists.1 hsome'
        obtain ⟨hs', hle'⟩ := (findSub_take_iff).1 hl'
        obtain rfl := Option.some.inj (hs.symm.trans hs')
        exact congrArg some (Nat.le_antisymm hle' hge)
    rw [hend]
    cases hs : findSub (lit "\r\n\r\n") stream with
    | none => rfl
    | some i =>
      dsimp only [Option.map_some]
      rw [if_neg (hnot i hs)]

theorem crlfEnd_ge {e c : Nat} (he : firstEnd stream = some e) (hc : crlfEnd stream = some c) : e ≤ c := by
  obtain ⟨i, hi, rfl⟩ := Option.map_eq_some_iff.1 hc
  refine ((firstEnd_spec he).2 (i + 4)).1 ((headerEnd_isSome_iff).2 (Or.inl ?_))
  rw [(findSub_take_iff (n := i + 4)).2 ⟨hi, Nat.le_refl _⟩]
  rfl

theorem endAt_cases {e n : Nat} : endAt stream e n = e ∨ crlfEnd stream = some (endAt stream e n) := by
  unfold endAt
  cases crlfEnd stream with
  | none => exact Or.inl rfl
  | some c =>
    dsimp only
    split_ifs
    · exact Or.inr rfl
    · exact Or.inl rfl

theorem endAt_crlf {e c : Nat} (hc : crlfEnd stream = some c) : endAt stream e c = c := by
  unfold endAt
  rw [hc]
  exact if_pos (Nat.le_refl c)

theorem endAt_endAt {e n : Nat} (he : firstEnd stream = some e) :
    e ≤ endAt stream e n ∧ endAt stream e (endAt stream e n) = endAt stream e n := by
  rcases @endAt_cases stream e n with heq | hc
  · rw [heq]
    refine ⟨Nat.le_refl e, ?_⟩
    rcases @endAt_cases stream e e with heq' | hc
    · exact heq'
    · exact Nat.le_antisymm (endAt_le (Nat.le_refl e)) (crlfEnd_ge he hc)
  · exact ⟨crlfEnd_ge he hc, endAt_crlf hc⟩

theorem endAt_self {e : Nat} (he : firstEnd stream = some e) : endAt stream e e = e :=
  Nat.le_antisymm (endAt_le (Nat.le_refl e)) (endAt_endAt he).1

/-! ### The outcome -/

/-- The body, where the header is looked for in the first `n` bytes. -/
def bodyAt (stream : Bytes) (n : Nat) : Option Bytes :=
  (headerEnd (stream.take n)).bind fun hend => framed stream hend (contentLength (stream.take n) hend)

theorem bodyAt_eq {e n : Nat} (he : firstEnd stream = some e) (hn : e ≤ n) :
    bodyAt stream n = framed stream (endAt stream e n) (contentLength (stream.take n) (endAt stream e n)) := by
  unfold bodyAt
  rw [headerEnd_take he hn]
  rfl

theorem bodyAt_endAt {e n : Nat} (he : firstEnd stream = some e) :
    bodyAt stream (endAt stream e n) = declared stream (endAt stream e n) := by
  obtain ⟨hge, hself⟩ := endAt_endAt (n := n) he
  rw [bodyAt_eq he hge, hself]
  rfl

/-- The three kinds together say that the body does not depend on where the read ends. -/
theorem steadyAt_iff {e : Nat} (he : firstEnd stream = some e) :
    SteadyAt stream e ↔ (∀ n, e ≤ n → n ≤ window stream e → bodyAt stream n = bodyAt stream e) ∧
      (maxHeader < e → e ≤ window stream e → bodyAt stream e = none) := by
  have hself : bodyAt stream e = declared stream e := by
    have h := bodyAt_endAt (n := e) he
    rwa [endAt_self he] at h
  have hblank : ∀ n, e ≤ n → Blank stream (endAt stream e n) →
      bodyAt stream n = framed stream (endAt stream e n) (strtol ((stream.take n).drop (endAt stream e n))) ∧
        bodyAt stream (endAt stream e n) = framed stream (endAt stream e n) 0 := by
    intro n hn hb
    obtain ⟨hlen, hzero⟩ := (contentLength_take (headerEnd_take he hn)).1 hb
    refine ⟨(bodyAt_eq he hn).trans (congrArg _ hlen), ?_⟩
    rw [bodyAt_endAt he]
    exact congrArg _ hzero
  constructor
  · intro hsteady
    refine ⟨fun n hn hw => ?_, fun hlimit hw => hself.trans (hsteady.limit hlimit hw)⟩
    -- the end that counts with `n` bytes decides the same body as the first one
    have hend : bodyAt stream (endAt stream e n) = bodyAt stream e := by
      rcases @endAt_cases stream e n with heq | hc
      · rw [heq]
      · rw [bodyAt_endAt he, hself]
        exact hsteady.crlf _ hc (endAt_endAt he).1 (Nat.le_trans (endAt_le hn) hw)
    rw [← hend]
    by_cases hb : Blank stream (endAt stream e n)
    · obtain ⟨hn', hzero⟩ := hblank n hn hb
      rw [hn', hzero]
      exact hsteady.blank n hn hw hb
    · rw [bodyAt_eq he hn, (contentLength_take (headerEnd_take he hn)).2 hb, bodyAt_endAt he]
      rfl
  · rintro ⟨hsame, hlimit⟩
    refine ⟨fun h hw => hself.symm.trans (hlimit h hw), fun c hc hce hw => ?_, fun n hn hw hb => ?_⟩
    · have hend : endAt stream e c = c := endAt_crlf hc
      have hbody := bodyAt_endAt (n := c) he
      rw [hend] at hbody
      rw [← hbody, ← hself]
      exact hsame c hce hw
    · obtain ⟨hn', hzero⟩ := hblank n hn hb
      rw [← hn', ← hzero, hsame n hn hw]
      exact (hsame _ (endAt_endAt he).1 (Nat.le_trans (endAt_le hn) hw)).symm

/-- The outcome, where the header is looked for in the first `n` bytes. -/
def outcomeAt (stream : Bytes) (n : Nat) : Option HttpRequest :=
  (requestLine stream).bind fun line => (bodyAt stream n).map (HttpRequest.mk line.1 line.2)

theorem readHttpRequest_none (h : headerLoop splits stream (stream.length + 1) 0 0 = none) :
    readHttpRequest splits stream = none := by
  unfold readHttpRequest
  rw [h]

theorem readHttpRequest_some {k n hend : Nat} (h : headerLoop splits stream (stream.length + 1) 0 0 = some (k, n, hend))
    (hend' : headerEnd (stream.take n) = some hend) (hn : n ≤ stream.length) :
    readHttpRequest splits stream = outcomeAt stream n := by
  have hsome : (headerEnd (stream.take n)).isSome := by rw [hend']; rfl
  unfold readHttpRequest outcomeAt bodyAt framed
  rw [h]
  dsimp only
  rw [requestLine_take hsome, hend', Option.bind_some]
  cases requestLine stream with
  | none => rfl
  | some line =>
    dsimp only
    rw [bodyLoop_eq hn (by omega), Option.bind_some]
    by_cases hbad : contentLength (stream.take n) hend < 0 ∨ maxBody < contentLength (stream.take n) hend
    · rw [if_pos hbad, if_pos (hbad.imp_right Or.inl)]
      rfl
    · rw [if_neg hbad]
      by_cases hshort : stream.length < hend + (contentLength (stream.take n) hend).toNat
      · rw [if_pos (Or.inr (Or.inr hshort)), if_neg]
        · rfl
        · simpa using hshort
      · have hok : ¬ (contentLength (stream.take n) hend < 0 ∨ maxBody < contentLength (stream.take n) hend ∨
            stream.length < hend + (contentLength (stream.take n) hend).toNat) :=
          fun h => hbad (h.imp_right fun h => h.resolve_right hshort)
        rw [if_neg hok, if_pos]
        · rfl
        · simpa using hshort

/-- A split ends with what is decided somewhere in the window, or with nothing behind the limit. -/
theorem readHttpRequest_cases {e : Nat} (he : firstEnd stream = some e) (splits : Nat → Nat) :
    (readHttpRequest splits stream = none ∧ maxHeader < e) ∨
      ∃ n, e ≤ n ∧ n ≤ window stream e ∧ readHttpRequest splits stream = outcomeAt stream n := by
  have hpos := firstEnd_pos he
  have hspec := @headerLoop_spec stream splits e he (stream.length + 1) 0 0 hpos (Nat.lt_succ_self _)
  rcases hspec with ⟨hnone, hlimit⟩ | hsome
  · exact Or.inl ⟨readHttpRequest_none hnone, hlimit⟩
  · obtain ⟨k, n, hend, hloop, hen, hn, hend'⟩ := hsome
    exact Or.inr ⟨n, hen, hn, readHttpRequest_some hloop hend' (Nat.le_trans hn (Nat.min_le_left _ _))⟩

theorem outcomeAt_eq_iff {line : Bytes × Bytes} (h : requestLine stream = some line) (n m : Nat) :
    outcomeAt stream n = outcomeAt stream m ↔ bodyAt stream n = bodyAt stream m := by
  unfold outcomeAt
  rw [h, Option.bind_some, Option.bind_some]
  exact (Option.map_injective fun _ _ heq => (HttpRequest.mk.inj heq).2.2).eq_iff

example : readHttpRequest (fun k => k) (lit "POST /x?y HTTP/1.1\r\ncontent-length: 2\r\n\r\nAB") =
    some ⟨lit "POST", lit "/x", lit "AB"⟩ := by
  decide +kernel

/-- A blank line of LF lines, and one of CRLF lines behind it. -/
def mixedStream : Bytes := lit "POST /x\n\nContent-Length: 1\r\n\r\nA"

end DS4.Server.Http
