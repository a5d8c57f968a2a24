import DS4.Server.DecodeLoop
import DS4.Server.StreamBlocks

namespace DS4.Server

/-!
# Server — what the decode loop sends

The decode loop with what it writes to the client: deltas of the plain stream of a completion, or
updates of the live stream of the request's API, and the last ones behind the loop.  A failed write
is the last one.

* `StreamEvent` — a delta, or bytes that are held back for an incomplete character.
* `Live` — the loop together with its stream; `Live.iterate_dec` — its decode part is the loop.
* `Decode.stopLimit` — how much of the text stop sequences allow to be sent;
  `Decode.Scanned.le_stopLimit` — **what is allowed** never goes back.
-/

/-! ### The loop and its stream -/

/-- A delta, or what the writer holds back because a character is not complete. -/
inductive StreamEvent where
  | sent (d : Delta)
  | held (bytes : Bytes)
  deriving DecidableEq

/-- The loop, the live stream of the request's API, and what was written. -/
structure Live where
  dec : Decode
  stream : OpenaiStream
  events : List StreamEvent
  /-- for each token, how much was released to the streams, and how much stop sequences allow -/
  cuts : List (Nat × Nat)
  /-- a write has failed -/
  broken : Bool

/-- The live stream of a request; completions of the OpenAI API have the plain one. -/
def DecodeConfig.streamApi (cfg : DecodeConfig) (reasoningSummaryEmit : Bool) : Option StreamApi :=
  if cfg.stream = false then none
  else
    match cfg.api with
    | .openai    => if cfg.kind = .chat then some openaiApi else none
    | .anthropic => some anthropicApi
    | .responses => if cfg.kind = .chat then some (responsesApi reasoningSummaryEmit) else none

/-- Is the request streamed without structure? -/
def DecodeConfig.plain (cfg : DecodeConfig) : Bool := cfg.stream && !cfg.structuredStream

/-- How much of the text stop sequences allow to be sent. -/
def Decode.stopLimit (cfg : DecodeConfig) (st : Decode) : Nat :=
  min (match st.hitStop cfg with
    | some pos => pos
    | none     => cfg.stops.streamSafeLen st.text.length) st.text.length

namespace Live

variable (cfg : DecodeConfig) (emit : Bool)

/-- Before the loop. -/
def init (prompt : List Nat) : Live where
  dec := Decode.init cfg prompt
  stream := openaiStreamStart cfg.thinking
  events := []
  cuts := []
  broken := false

/-- What the plain stream writes for a token that has been appended. -/
def plainEvents (st : Decode) : List StreamEvent :=
  (if st.plainDelta cfg then
      [.sent (.content (cstr (slice st.text st.plainStreamPos (st.streamLen cfg))))]
    else []) ++
    [.held (slice st.text (st.streamLen cfg) (st.stopLimit cfg))]

/-- What a live stream writes in an update of the text `raw`. -/
def updateEvents (api : StreamApi) (raw : Bytes) (rawLen : Nat) (stream : OpenaiStream)
    (final : Bool) : List StreamEvent :=
  (api.sseStreamUpdate raw rawLen cfg.hasTools stream final).2.map .sent ++
    [.held (api.held raw rawLen cfg.hasTools stream final)]

/-- What is written for a token that has been appended. -/
def tokenEvents (st : Decode) (stream : OpenaiStream) : List StreamEvent :=
  if cfg.plain then plainEvents cfg st
  else
    match cfg.streamApi emit with
    | some api => updateEvents cfg api st.text (st.streamLen cfg) stream false
    | none     => []

/-- The live stream after a token that has been appended. -/
def tokenStream (st : Decode) (stream : OpenaiStream) : OpenaiStream :=
  match cfg.streamApi emit with
  | some api => (api.sseStreamUpdate st.text (st.streamLen cfg) cfg.hasTools stream false).1
  | none     => stream

/-- The body of the walk for one token. -/
def feed (s : Live) (token : Nat) (io : SendIo) : Live :=
  let st := s.dec.append cfg token
  { dec := (s.dec.feedToken cfg token io).1
    stream := tokenStream cfg emit st s.stream
    events := s.events ++ tokenEvents cfg emit st s.stream
    cuts := s.cuts ++ [(st.streamLen cfg, st.stopLimit cfg)]
    broken := s.broken || !st.sendsOk cfg io }

/-- The walk over the accepted tokens. -/
def walkBatch (max : Nat) : Live → List (Nat × SendIo) → Live
  | s, []                  => s
  | s, (token, io) :: toks =>
    if s.dec.completion < max then
      if token = cfg.eos then { s with dec := { s.dec with finish := .stop, ended := true } }
      else
        let s' := s.feed cfg emit token io
        if (s.dec.feedToken cfg token io).2 then { s' with dec := { s'.dec with ended := true } }
        else walkBatch max s' toks
    else s

/-- One iteration of the loop. -/
def iterate (max : Nat) (s : Live) (it : Iteration) : Live :=
  if s.dec.continues cfg max it = false then { s with dec := { s.dec with ended := true } }
  else if it.sampled = cfg.eos then
    { s with dec := { s.dec with finish := .stop, ended := true } }
  else
    match it.evaluated with
    | .failed      => { s with dec := { s.dec with finish := .error, ended := true } }
    | .tokens toks => walkBatch cfg emit max { s with dec := s.dec.commit toks } toks

/-- What is written behind the loop: the rest of the plain stream, or the final update; the
    Responses stream writes what it has not sent when a tool call turns out to be text. -/
def finish (s : Live) (recovered : Bool) : List StreamEvent :=
  if s.broken then []
  else if cfg.plain then
    if s.dec.plainStreamPos < s.dec.text.length then
      [.sent (.content (cstr (slice s.dec.text s.dec.plainStreamPos s.dec.text.length)))]
    else []
  else
    match cfg.streamApi emit with
    | some api =>
      let st := (api.sseStreamUpdate s.dec.text s.dec.text.length cfg.hasTools s.stream true).1
      updateEvents cfg api s.dec.text s.dec.text.length s.stream true ++
        (if cfg.api = .responses ∧ recovered = true ∧ st.emitPos < s.dec.text.length then
          [.sent (.content (api.out (slice s.dec.text st.emitPos s.dec.text.length)))] else [])
    | none     => []

/-- The bytes of the tokens that were generated. -/
def generated (s : Live) : Bytes := s.dec.rendered.flatMap cfg.tokenText

/-! ### The decode part -/

theorem walkBatch_dec (max : Nat) (s : Live) (toks : List (Nat × SendIo)) :
    (walkBatch cfg emit max s toks).dec = Decode.walkBatch cfg max s.dec toks := by
  induction toks generalizing s with
  | nil => rfl
  | cons tok toks ih =>
    rcases tok with ⟨token, io⟩
    rw [walkBatch, Decode.walkBatch]
    split
    · split
      · rfl
      · dsimp only
        split
        · rfl
        · rw [ih]
          rfl
    · rfl

/-- **The decode part** of an iteration is an iteration of the loop. -/
theorem iterate_dec (max : Nat) (s : Live) (it : Iteration) :
    (iterate cfg emit max s it).dec = Decode.iterate cfg max s.dec it := by
  unfold iterate Decode.iterate
  split
  · rfl
  split
  · rfl
  cases it.evaluated with
  | failed => rfl
  | tokens toks => exact walkBatch_dec cfg emit max _ toks

end Live

/-! ### The search for stop sequences -/

theorem StopList.le_maxLen {stops : StopList} {p : Bytes} (h : p ∈ stops) :
    p.length ≤ stops.maxLen := by
  have hfold : ∀ (ls : List Nat) (m : Nat), m ≤ ls.foldl max m ∧ ∀ l ∈ ls, l ≤ ls.foldl max m := by
    intro ls
    induction ls with
    | nil => exact fun m => ⟨Nat.le_refl m, fun l hl => absurd hl List.not_mem_nil⟩
    | cons k ls ih =>
      intro m
      obtain ⟨h1, h2⟩ := ih (max m k)
      refine ⟨Nat.le_trans (Nat.le_max_left m k) h1, List.forall_mem_cons.mpr ⟨?_, h2⟩⟩
      exact Nat.le_trans (Nat.le_max_right m k) h1
  exact (hfold (stops.map List.length) 0).2 _ (List.mem_map_of_mem h)

/-- A stop sequence that is found stands in the text, at or behind the start of the search. -/
theorem StopList.findFrom_some {stops : StopList} {text : Bytes} {start pos : Nat}
    (h : stops.findFrom text start = some pos) :
    start ≤ pos ∧ ∃ p ∈ stops, strstr (text.drop start) p = some (pos - start) ∧
      p <+: text.drop pos := by
  unfold findFrom at h
  obtain ⟨i, hi, rfl⟩ := Option.map_eq_some_iff.mp h
  obtain ⟨p, hp, hfind⟩ := List.mem_map.mp (earliest_mem hi)
  refine ⟨Nat.le_add_right _ _, p, hp, ?_, strstr_prefix hfind⟩
  rw [Nat.add_sub_cancel_left]
  exact hfind

/-- A search for single bytes that has found nothing finds nothing before the end of that text. -/
theorem StopList.findFrom_append {stops : StopList} {text piece : Bytes} {pos : Nat}
    (hshort : stops.maxLen ≤ 1) (hne : ∀ p ∈ stops, p ≠ []) (hnone : stops.findFrom text 0 = none)
    (h : stops.findFrom (text ++ piece) 0 = some pos) : text.length ≤ pos := by
  obtain ⟨-, p, hp, hfind, -⟩ := findFrom_some h
  have hlen : p.length = 1 := by
    have hle := Nat.le_trans (StopList.le_maxLen hp) hshort
    have hpos := List.length_pos_iff.mpr (hne p hp)
    omega
  have hold : strstr text p = none := by
    unfold findFrom at hnone
    rw [Option.map_eq_none_iff, List.drop_zero] at hnone
    exact earliest_eq_none hnone _ (List.mem_map_of_mem hp)
  rw [List.drop_zero, Nat.sub_zero] at hfind
  unfold strstr cstr at hfind hold
  rw [List.takeWhile_append] at hfind
  split at hfind
  · rename_i hall
    -- no NUL in the old text: the byte stands behind it
    have heq : text.takeWhile (fun c => decide (c ≠ 0)) = text :=
      (List.takeWhile_prefix _).eq_of_length hall
    rw [heq] at hold
    by_contra hlt
    rw [Lib.findSub_append_left hfind (by omega)] at hold
    exact absurd hold (by simp)
  · rw [hfind] at hold
    exact absurd hold (by simp)

/-! ### One token -/

namespace Decode

variable {cfg : DecodeConfig} {st : Decode} {cuts : List (Nat × Nat)}

/-- What the search for stop sequences keeps while it finds none: it has passed what was allowed,
    and what was allowed is there. -/
structure Scanned (cfg : DecodeConfig) (st : Decode) (cuts : List (Nat × Nat)) : Prop where
  fits : ∀ c ∈ cuts, c.2 ≤ st.text.length
  long : 1 < cfg.stops.maxLen → (∀ c ∈ cuts, c.2 ≤ st.stopScanFrom) ∧
    st.stopScanFrom ≤ st.text.length - (cfg.stops.maxLen - 1)
  short : cfg.stops.maxLen ≤ 1 → st.stopScanFrom = 0 ∧ cfg.stops.findFrom st.text 0 = none

theorem append_text (cfg : DecodeConfig) (st : Decode) (token : Nat) :
    (st.append cfg token).text = st.text ++ cfg.tokenText token := rfl

/-- **What is allowed** never goes back, also not at a stop sequence. -/
theorem Scanned.le_stopLimit (h : Scanned cfg st cuts) (hne : ∀ p ∈ cfg.stops, p ≠ []) (token : Nat) :
    ∀ c ∈ cuts, c.2 ≤ (st.append cfg token).stopLimit cfg := by
  intro c hc
  have hfits := h.fits c hc
  have hlen : (st.append cfg token).text.length = st.text.length + (cfg.tokenText token).length := by
    rw [append_text, List.length_append]
  unfold stopLimit
  refine Nat.le_min.mpr ⟨?_, by omega⟩
  cases hhit : (st.append cfg token).hitStop cfg with
  | some pos =>
    dsimp only
    have hfind : cfg.stops.findFrom (st.text ++ cfg.tokenText token) st.stopScanFrom = some pos := hhit
    rcases Nat.lt_or_ge 1 cfg.stops.maxLen with hlong | hshort
    -- the search has passed it
    · have hle := (StopList.findFrom_some hfind).1
      exact Nat.le_trans ((h.long hlong).1 c hc) hle
    · obtain ⟨hscan, hnone⟩ := h.short hshort
      rw [hscan] at hfind
      exact Nat.le_trans hfits (StopList.findFrom_append hshort hne hnone hfind)
  | none =>
    dsimp only
    unfold StopList.streamSafeLen
    split
    · omega
    · rename_i hlong
      rw [not_or, Nat.not_le] at hlong
      obtain ⟨hscan, hbound⟩ := h.long hlong.2
      have := hscan c hc
      omega

/-- What a token leaves of the text and of the positions, if its writes succeed. -/
theorem feedToken_sent (cfg : DecodeConfig) (st : Decode) (token : Nat) (io : SendIo)
    (hok : (st.append cfg token).sendsOk cfg io = true) :
    let a := st.append cfg token
    let r := st.feedToken cfg token io
    r.1.plainStreamPos = (a.advance cfg).plainStreamPos ∧
      r.1.stopScanFrom = (a.advance cfg).stopScanFrom ∧
      (∀ pos, a.hitStop cfg = some pos →
        r.1.text = a.text.take pos ∧ r.1.sessionValid = false ∧ r.2 = true) ∧
      (a.hitStop cfg = none → r.1.text = a.text ∧ r.1.sessionValid = st.sessionValid) := by
  intro a r
  have hscan : ∀ d : Decode, (if cfg.tools = true then d.scanTools cfg else d).plainStreamPos =
      d.plainStreamPos ∧ (if cfg.tools = true then d.scanTools cfg else d).stopScanFrom =
        d.stopScanFrom ∧ (if cfg.tools = true then d.scanTools cfg else d).text = d.text ∧
      (if cfg.tools = true then d.scanTools cfg else d).sessionValid = d.sessionValid := by
    intro d
    split
    · unfold scanTools
      split <;> exact ⟨rfl, rfl, rfl, rfl⟩
    · exact ⟨rfl, rfl, rfl, rfl⟩
  obtain ⟨h1, h2, h3, h4⟩ := hscan ((st.append cfg token).advance cfg)
  have hr : r = st.feedToken cfg token io := rfl
  unfold feedToken at hr
  rw [if_neg (by rw [hok]; simp)] at hr
  dsimp only at hr
  generalize (if cfg.tools = true then ((st.append cfg token).advance cfg).scanTools cfg
    else (st.append cfg token).advance cfg) = scanned at h1 h2 h3 h4 hr
  cases hhit : a.hitStop cfg with
  | some pos =>
    rw [show (st.append cfg token).hitStop cfg = some pos from hhit] at hr
    rw [hr]
    dsimp only
    refine ⟨h1, h2, fun pos' hpos => ?_, fun h => absurd h (by simp)⟩
    obtain rfl := Option.some.inj hpos
    exact ⟨congrArg (List.take pos) h3, rfl, rfl⟩
  | none =>
    rw [show (st.append cfg token).hitStop cfg = none from hhit] at hr
    rw [hr]
    dsimp only
    split
    · exact ⟨h1, h2, fun pos h => absurd h (by simp), fun _ => ⟨h3, h4⟩⟩
    · exact ⟨h1, h2, fun pos h => absurd h (by simp), fun _ => ⟨h3, h4⟩⟩

/-- What a token leaves if a write fails. -/
theorem feedToken_unsent (cfg : DecodeConfig) (st : Decode) (token : Nat) (io : SendIo)
    (hfail : (st.append cfg token).sendsOk cfg io = false) :
    st.feedToken cfg token io = ({ st.append cfg token with finish := .error }, true) := by
  unfold feedToken
  rw [if_pos hfail]

/-- While no stop sequence is found, the search goes on. -/
theorem Scanned.feedToken (h : Scanned cfg st cuts) (token : Nat) (io : SendIo)
    (hok : (st.append cfg token).sendsOk cfg io = true)
    (hhit : (st.append cfg token).hitStop cfg = none) :
    Scanned cfg (st.feedToken cfg token io).1
      (cuts ++ [((st.append cfg token).streamLen cfg, (st.append cfg token).stopLimit cfg)]) := by
  obtain ⟨-, hscan, -, hnone⟩ := feedToken_sent cfg st token io hok
  obtain ⟨htext, -⟩ := hnone hhit
  have hlen : (st.append cfg token).text.length = st.text.length + (cfg.tokenText token).length := by
    rw [append_text, List.length_append]
  have hlimit : (st.append cfg token).stopLimit cfg ≤ (st.append cfg token).text.length := Nat.min_le_right _ _
  refine ⟨?_, fun hlong => ?_, fun hshort => ?_⟩
  · intro c hc
    rw [htext]
    rcases List.mem_append.mp hc with hold | hnew
    · have := h.fits c hold
      omega
    · rw [List.mem_singleton.mp hnew]
      exact hlimit
  · obtain ⟨hpassed, hbound⟩ := h.long hlong
    have hfrom : ((st.append cfg token).advance cfg).stopScanFrom =
        (st.append cfg token).text.length - (cfg.stops.maxLen - 1) := by
      unfold advance
      dsimp only
      rw [hhit, if_pos ⟨rfl, hlong⟩]
    rw [hscan, hfrom, htext]
    refine ⟨fun c hc => ?_, Nat.le_refl _⟩
    rcases List.mem_append.mp hc with hold | hnew
    · have := hpassed c hold
      omega
    · rw [List.mem_singleton.mp hnew]
      show (st.append cfg token).stopLimit cfg ≤ _
      unfold stopLimit
      rw [hhit]
      refine Nat.le_trans (Nat.min_le_left _ _) ?_
      unfold StopList.streamSafeLen
      have hstops : ¬ (cfg.stops = [] ∨ cfg.stops.maxLen ≤ 1) := by
        rintro (hnil | hle)
        · rw [hnil] at hlong
          exact absurd hlong (by simp [StopList.maxLen])
        · omega
      rw [if_neg hstops]
  · obtain ⟨hzero, -⟩ := h.short hshort
    have hfrom : ((st.append cfg token).advance cfg).stopScanFrom = 0 := by
      unfold advance
      dsimp only
      rw [if_neg (fun hc => by omega)]
      exact hzero
    rw [hscan, hfrom, htext]
    refine ⟨rfl, ?_⟩
    have hfind : cfg.stops.findFrom (st.append cfg token).text st.stopScanFrom = none := hhit
    rwa [hzero] at hfind

end Decode

end DS4.Server
