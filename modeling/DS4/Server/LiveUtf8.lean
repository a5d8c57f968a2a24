import DS4.Lib.Owed
import DS4.Server.LiveRun

namespace DS4.Server

/-!
# Server — streamed text is whole characters

What the decode loop writes is valid UTF-8 if the generated text is: the cut of the loop is a
boundary between characters, and so are the cuts of the stream that gets the text up to it.

* `Live.Inv` — what holds between tokens; `Live.Inv.cut` — **the cut for a token**.
* `Live.Inv.writes` — what a token writes; `Live.Inv.feed`, `Live.Inv.run` — it keeps the invariant.
* `Live.Inv.closes` — behind the loop everything that was held is sent.
* `streamed_utf8` — **streamed text is valid UTF-8**, cut at characters, and complete at the end;
  `stop_inside_character` — a stop sequence that begins inside a character.
-/

/-! ### The stream between tokens -/

/-- Bytes that are held back are owed, … -/
def owes : StreamEvent → Bytes → Prop
  | .sent _, _     => False
  | .held bytes, h => bytes = h ∧ h ≠ []

/-- … a delta that begins with them pays. -/
def pays : StreamEvent → Bytes → Prop
  | .sent d, h => h <+: d.text
  | .held _, _ => False

/-- No stop sequence begins inside a character. -/
def StopsAtCharacters (stops : StopList) : Prop := ∀ p ∈ stops, ∃ b t, p = b :: t ∧ ¬ Lib.Tail b

theorem StopsAtCharacters.ne_nil {stops : StopList} (h : StopsAtCharacters stops) :
    ∀ p ∈ stops, p ≠ [] := by
  intro p hp
  obtain ⟨b, t, rfl, -⟩ := h p hp
  simp

theorem StopsAtCharacters.findFrom_nil {stops : StopList} (h : StopsAtCharacters stops) :
    stops.findFrom [] 0 = none := by
  cases hfind : stops.findFrom [] 0 with
  | none => rfl
  | some pos =>
    obtain ⟨-, p, hp, -, hpre⟩ := StopList.findFrom_some hfind
    rw [List.drop_nil, List.prefix_nil] at hpre
    exact absurd hpre (h.ne_nil p hp)

theorem sent_free {es : List Delta} : ∀ e ∈ es.map StreamEvent.sent, ∀ a, ¬ owes e a := by
  intro e he a
  obtain ⟨d, -, rfl⟩ := List.mem_map.mp he
  exact id

theorem pays_of_begins {h : Bytes} {ds : List Delta} {es : List StreamEvent} (hb : Begins h ds)
    (hes : ∀ d ∈ ds, .sent d ∈ es) : ∃ e ∈ es, pays e h := by
  obtain ⟨d, hd, hp⟩ := hb
  exact ⟨.sent d, hes d hd, hp⟩

namespace Live

variable (cfg : DecodeConfig) (emit : Bool) {full : Bytes}

/-- The writer stands before bytes that it has held back. -/
def Waits (full : Bytes) (s : Live) (h : Bytes) : Prop :=
  h ≠ [] ∧
    if cfg.plain then
      ∃ c ∈ s.cuts, HeldAt full s.dec.plainStreamPos h ∧ s.dec.plainStreamPos < c.2
    else
      match cfg.streamApi emit with
      | some api => ∃ c ∈ s.cuts, api.Awaits full c.1 s.stream h
      | none     => False

/-- What holds between tokens, in a run that generates `full`. -/
structure Inv (full : Bytes) (s : Live) : Prop where
  plainPos : s.dec.plainStreamPos = 0 ∨ ∃ c ∈ s.cuts, c.1 = s.dec.plainStreamPos
  stream : StreamInv full s.stream
  sent : ∀ d, .sent d ∈ s.events → Lib.Valid d.text
  short : ∀ h, .held h ∈ s.events → h.length ≤ 3
  cuts : ∀ c ∈ s.cuts, Lib.Boundary full c.1 ∧ c.1 ≤ c.2 ∧ c.2 ≤ c.1 + 3
  whole : s.dec.sessionValid = true → s.dec.text = s.generated cfg
  stopped : s.dec.sessionValid = false →
    s.dec.text <+: full ∧ Lib.Boundary full s.dec.text.length
  fits : s.broken = false → ∀ c ∈ s.cuts, c.2 ≤ s.dec.text.length
  settled : s.broken = false → Lib.Settled owes pays (s.Waits cfg emit full) s.events
  scanned : s.dec.sessionValid = true → s.broken = false → Decode.Scanned cfg s.dec s.cuts

variable {cfg} {emit} {s : Live}

/-- The invariant does not depend on how the loop is left. -/
theorem Inv.leave (h : Inv cfg emit full s) (d : Decode) (htext : d.text = s.dec.text)
    (hrendered : d.rendered = s.dec.rendered) (hvalid : d.sessionValid = s.dec.sessionValid)
    (hpos : d.plainStreamPos = s.dec.plainStreamPos) (hscan : d.stopScanFrom = s.dec.stopScanFrom) :
    Inv cfg emit full { s with dec := d } where
  plainPos := by rw [hpos]; exact h.plainPos
  stream := h.stream
  sent := h.sent
  short := h.short
  cuts := h.cuts
  whole := by
    intro hv
    have hw := h.whole (hvalid.symm.trans hv)
    unfold generated at hw ⊢
    rw [htext, hrendered]
    exact hw
  stopped := by rw [hvalid, htext]; exact h.stopped
  fits := by rw [htext]; exact h.fits
  settled := by
    intro hb
    have hset := h.settled hb
    unfold Waits at hset ⊢
    rw [hpos]
    exact hset
  scanned := by
    intro hv hb
    have hsc := h.scanned (hvalid.symm.trans hv) hb
    exact ⟨by rw [htext]; exact hsc.fits, by rw [hscan, htext]; exact hsc.long,
      by rw [hscan, htext]; exact hsc.short⟩

theorem streamLen_eq (st : Decode) : st.streamLen cfg =
    utf8StreamSafeLen st.text st.plainStreamPos (st.stopLimit cfg) (st.hitStop cfg).isSome := rfl

/-- **The cut for a token**: at a boundary, at most three bytes before what stop sequences allow,
    and behind all earlier cuts. -/
theorem Inv.cut (hfull : Lib.Valid full) (hstops : StopsAtCharacters cfg.stops)
    (h : Inv cfg emit full s) (hvalid : s.dec.sessionValid = true) (hbroken : s.broken = false)
    (token : Nat) (hgen : (s.dec.append cfg token).text <+: full) :
    let st := s.dec.append cfg token
    let held := slice st.text (st.streamLen cfg) (st.stopLimit cfg)
    Lib.Boundary full (st.streamLen cfg) ∧ st.streamLen cfg ≤ st.stopLimit cfg ∧
      st.stopLimit cfg ≤ st.streamLen cfg + 3 ∧ st.stopLimit cfg ≤ st.text.length ∧
      (∀ c ∈ s.cuts, c.1 ≤ st.streamLen cfg ∧ c.2 ≤ st.stopLimit cfg) ∧
      s.dec.plainStreamPos ≤ st.streamLen cfg ∧
      (held ≠ [] → HeldAt full (st.streamLen cfg) held ∧ st.streamLen cfg < st.stopLimit cfg) ∧
      held.length ≤ 3 ∧
      ∀ pos, st.hitStop cfg = some pos → st.streamLen cfg = pos ∧ st.stopLimit cfg = pos ∧
        pos ≤ st.text.length := by
  intro st held
  have hold := (h.scanned hvalid hbroken).le_stopLimit hstops.ne_nil token
  have htake : st.text = full.take st.text.length := List.prefix_iff_eq_take.mp hgen
  have hn : st.text.length ≤ full.length := hgen.length_le
  have hlimit : st.stopLimit cfg ≤ st.text.length := Nat.min_le_right _ _
  -- the plain stream stands at an earlier cut
  have hstart : Lib.Boundary full s.dec.plainStreamPos ∧ s.dec.plainStreamPos ≤ st.stopLimit cfg := by
    rcases h.plainPos with hzero | ⟨c, hc, hpos⟩
    · rw [hzero]
      exact ⟨Lib.boundary_zero hfull, Nat.zero_le _⟩
    · obtain ⟨hb, hle, -⟩ := h.cuts c hc
      rw [← hpos]
      exact ⟨hb, Nat.le_trans hle (hold c hc)⟩
  have hlen : st.streamLen cfg = utf8StreamSafeLen (full.take st.text.length) s.dec.plainStreamPos
      (st.stopLimit cfg) (st.hitStop cfg).isSome := by
    rw [← htake]
    rfl
  have hbehind : ∀ r, Lib.Boundary full r → r ≤ st.stopLimit cfg → r ≤ st.streamLen cfg := by
    intro r hr hle
    rw [hlen, utf8StreamSafeLen_take full _ hlimit]
    exact le_utf8StreamSafeLen hfull hstart.1 (Nat.le_trans hlimit hn) hr hle _
  have hcuts : ∀ c ∈ s.cuts, c.1 ≤ st.streamLen cfg ∧ c.2 ≤ st.stopLimit cfg := by
    intro c hc
    obtain ⟨hb, hle, -⟩ := h.cuts c hc
    exact ⟨hbehind _ hb (Nat.le_trans hle (hold c hc)), hold c hc⟩
  cases hhit : st.hitStop cfg with
  | some pos =>
    -- the text is cut where a stop sequence begins, which is where a character begins
    have hfind : cfg.stops.findFrom st.text st.stopScanFrom = some pos := hhit
    obtain ⟨-, p, hp, -, hpre⟩ := StopList.findFrom_some hfind
    obtain ⟨b, t, rfl, hb⟩ := hstops p hp
    have hget := (Lib.prefix_drop_iff).mp hpre 0 (by simp)
    rw [Nat.add_zero, List.getElem?_cons_zero] at hget
    have hpos : pos < st.text.length := (List.getElem?_eq_some_iff.mp hget).1
    rw [htake] at hget
    have hbyte := getElem?_of_take hget
    have hbound : Lib.Boundary full pos := by
      obtain ⟨j, m, hj, -, hjl, hlm, -, htail⟩ := hfull.around (Nat.succ_pos pos) (by omega)
      by_cases heq : j = pos
      · rwa [← heq]
      · obtain ⟨y, hy, hyt⟩ := htail pos (by omega) (by omega)
        rw [hbyte] at hy
        rw [← Option.some.inj hy] at hyt
        exact absurd hyt hb
    have hstop : st.stopLimit cfg = pos := by
      show min _ _ = pos
      rw [hhit]
      exact Nat.min_eq_left (Nat.le_of_lt hpos)
    have hcut : st.streamLen cfg = pos := by
      rw [hlen, hhit, hstop]
      exact utf8StreamSafeLen_final _ _ _
    have hnil : held = [] := slice_self_le (by rw [hcut, hstop])
    rw [hnil]
    refine ⟨hcut ▸ hbound, by omega, by omega, hlimit, hcuts,
      hbehind _ hstart.1 hstart.2, fun hne => absurd rfl hne, Nat.zero_le _, ?_⟩
    intro pos' hpos'
    obtain rfl := Option.some.inj hpos'
    exact ⟨hcut, hstop, Nat.le_of_lt hpos⟩
  | none =>
    rw [hhit] at hlen
    have hspec := utf8StreamSafeLen_held hfull hn hstart.1 hlimit
    have hfalse : (none : Option Nat).isSome = false := rfl
    rw [hfalse] at hlen
    rw [← hlen, ← htake] at hspec
    obtain ⟨hcut, hle, hshort, hat⟩ := hspec
    have hwidth : st.stopLimit cfg ≤ st.streamLen cfg + 3 := by
      have hlength : (slice st.text (st.streamLen cfg) (st.stopLimit cfg)).length =
        st.stopLimit cfg - st.streamLen cfg := slice_length hlimit
      rw [hlength] at hshort
      omega
    refine ⟨(hcut hstart.2).1, hle, hwidth, hlimit, hcuts, (hcut hstart.2).2, fun hne => ?_, hshort,
      fun pos hpos => absurd hpos (by simp)⟩
    obtain ⟨-, hlt, hheld⟩ := hat hne
    exact ⟨hheld, hlt⟩

/-! ### What a token writes -/

/-- What the events of a token are, whichever stream writes them: valid text, short held bytes, and
    everything that was owed is paid or still owed. -/
structure Writes (cfg : DecodeConfig) (emit : Bool) (full : Bytes) (s s' : Live) (es : List StreamEvent) : Prop where
  sent : ∀ d, .sent d ∈ es → Lib.Valid d.text
  short : ∀ h, .held h ∈ es → h.length ≤ 3
  settled : s'.broken = false → Lib.Settled owes pays (s'.Waits cfg emit full) es
  goesOn : s'.broken = false → ∀ h, s.Waits cfg emit full h →
    (∃ e ∈ es, pays e h) ∨ s'.Waits cfg emit full h

/-- The events of an update of a live stream. -/
theorem mem_updateEvents {cfg : DecodeConfig} {api : StreamApi} {raw : Bytes} {rawLen : Nat}
    {stream : OpenaiStream} {final : Bool} {e : StreamEvent} :
    e ∈ updateEvents cfg api raw rawLen stream final ↔
      (∃ d ∈ (api.sseStreamUpdate raw rawLen cfg.hasTools stream final).2, .sent d = e) ∨
        e = .held (api.held raw rawLen cfg.hasTools stream final) := by
  unfold updateEvents
  rw [List.mem_append, List.mem_map, List.mem_singleton]

variable {token : Nat} {io : SendIo}

/-- The positions of the plain stream behind a token whose write succeeds. -/
theorem feed_plainStreamPos (hplain : cfg.plain = true)
    (hok : (s.dec.append cfg token).sendsOk cfg io = true)
    (hle : s.dec.plainStreamPos ≤ (s.dec.append cfg token).streamLen cfg) :
    (s.feed cfg emit token io).dec.plainStreamPos = (s.dec.append cfg token).streamLen cfg := by
  have hpos := (Decode.feedToken_sent cfg s.dec token io hok).1
  refine Eq.trans hpos ?_
  unfold Decode.advance Decode.plainDelta
  dsimp only
  have hp : (cfg.stream && !cfg.structuredStream) = true := hplain
  rw [hp, Bool.true_and]
  split
  · rfl
  · rename_i hlt
    rw [decide_eq_true_eq] at hlt
    have hsame : (s.dec.append cfg token).plainStreamPos = s.dec.plainStreamPos := rfl
    omega

theorem mem_cuts_feed {c : Nat × Nat} (hc : c ∈ s.cuts) : c ∈ (s.feed cfg emit token io).cuts :=
  List.mem_append_left _ hc

theorem sendsOk_of_feed (h : (s.feed cfg emit token io).broken = false) :
    (s.dec.append cfg token).sendsOk cfg io = true := by
  have hor : (s.broken || !(s.dec.append cfg token).sendsOk cfg io) = false := h
  rw [Bool.or_eq_false_iff, Bool.not_eq_false'] at hor
  exact hor.2

/-- **The plain stream** at a token. -/
theorem Inv.writes_plain (hfull : Lib.Valid full) (hstops : StopsAtCharacters cfg.stops)
    (h : Inv cfg emit full s) (hvalid : s.dec.sessionValid = true) (hbroken : s.broken = false)
    (hgen : (s.dec.append cfg token).text <+: full) (hplain : cfg.plain = true) :
    Writes cfg emit full s (s.feed cfg emit token io)
      (plainEvents cfg (s.dec.append cfg token)) := by
  obtain ⟨hbound, -, -, hlimit, -, hpos, hheld, hshort, -⟩ := h.cut hfull hstops hvalid hbroken token hgen
  have htake := List.prefix_iff_eq_take.mp hgen
  have hdelta : (s.dec.append cfg token).plainDelta cfg = true ↔
      s.dec.plainStreamPos < (s.dec.append cfg token).streamLen cfg := by
    unfold Decode.plainDelta
    have hp : (cfg.stream && !cfg.structuredStream) = true := hplain
    rw [hp, Bool.true_and, decide_eq_true_eq]
    rfl
  have hstart : Lib.Boundary full s.dec.plainStreamPos := by
    rcases h.plainPos with hzero | ⟨c, hc, heq⟩
    · rw [hzero]
      exact Lib.boundary_zero hfull
    · rw [← heq]
      exact (h.cuts c hc).1
  have hcl : (s.dec.append cfg token).streamLen cfg ≤ (s.dec.append cfg token).text.length := by
    have := (h.cut hfull hstops hvalid hbroken token hgen).2.1
    omega
  have hfree : ∀ e ∈ (if (s.dec.append cfg token).plainDelta cfg then
      [StreamEvent.sent (.content (cstr (slice (s.dec.append cfg token).text
        (s.dec.append cfg token).plainStreamPos ((s.dec.append cfg token).streamLen cfg))))] else []),
      e = .sent (.content (cstr (slice (s.dec.append cfg token).text s.dec.plainStreamPos
        ((s.dec.append cfg token).streamLen cfg)))) := by
    intro e he
    split at he
    · exact List.mem_singleton.mp he
    · exact absurd he List.not_mem_nil
  refine ⟨fun d hd => ?_, fun b hb => ?_, fun hok => ?_, fun hok b hwaits => ?_⟩
  · rcases List.mem_append.mp hd with hd | hd
    · obtain rfl := StreamEvent.sent.inj (hfree _ hd)
      apply valid_cstr
      rw [htake]
      exact valid_slice hstart hbound hcl
    · exact absurd (List.mem_singleton.mp hd) (by simp)
  · rcases List.mem_append.mp hb with hb | hb
    · exact absurd (hfree _ hb) (by simp)
    · obtain rfl := StreamEvent.held.inj (List.mem_singleton.mp hb)
      exact hshort
  · apply Lib.Settled.snoc
    · intro e he a
      rw [hfree e he]
      exact id
    · rintro a ⟨rfl, hne⟩
      obtain ⟨hat, hlt⟩ := hheld hne
      refine ⟨hne, ?_⟩
      rw [if_pos hplain, feed_plainStreamPos hplain (sendsOk_of_feed hok) hpos]
      exact ⟨_, List.mem_append_right _ (List.mem_singleton_self _), hat, hlt⟩
  · obtain ⟨hne, hwaits⟩ := hwaits
    rw [if_pos hplain] at hwaits
    obtain ⟨c, hc, hat, hlt⟩ := hwaits
    by_cases hd : s.dec.plainStreamPos < (s.dec.append cfg token).streamLen cfg
    · refine Or.inl ⟨.sent (.content (cstr (slice (s.dec.append cfg token).text s.dec.plainStreamPos
        ((s.dec.append cfg token).streamLen cfg)))), ?_, ?_⟩
      · apply List.mem_append_left
        rw [if_pos (hdelta.mpr hd)]
        exact List.mem_singleton_self _
      · apply prefix_cstr hat.high.nulFree
        rw [htake]
        exact hat.prefix_slice hbound hd hcl
    · refine Or.inr ⟨hne, ?_⟩
      rw [if_pos hplain, feed_plainStreamPos hplain (sendsOk_of_feed hok) hpos]
      have heq : (s.dec.append cfg token).streamLen cfg = s.dec.plainStreamPos := by omega
      rw [heq]
      exact ⟨c, mem_cuts_feed hc, hat, hlt⟩

/-- **A live stream** at a token. -/
theorem Inv.writes_live (hfull : Lib.Valid full) (hstops : StopsAtCharacters cfg.stops)
    (h : Inv cfg emit full s) (hvalid : s.dec.sessionValid = true) (hbroken : s.broken = false)
    (hgen : (s.dec.append cfg token).text <+: full) (hplain : ¬ cfg.plain = true) {api : StreamApi}
    (hapi : cfg.streamApi emit = some api) :
    Writes cfg emit full s (s.feed cfg emit token io)
      (updateEvents cfg api (s.dec.append cfg token).text ((s.dec.append cfg token).streamLen cfg)
        s.stream false) := by
  obtain ⟨-, hcl, -, hlimit, hcuts, -⟩ := h.cut hfull hstops hvalid hbroken token hgen
  have htake := List.prefix_iff_eq_take.mp hgen
  have hn : (s.dec.append cfg token).text.length ≤ full.length := hgen.length_le
  have hlen := Nat.le_trans hcl hlimit
  have hstream : (s.feed cfg emit token io).stream = (api.sseStreamUpdate (s.dec.append cfg token).text
      ((s.dec.append cfg token).streamLen cfg) cfg.hasTools s.stream false).1 := by
    show tokenStream cfg emit _ _ = _
    unfold tokenStream
    rw [hapi]
  have hfin : ∀ {P : Prop}, (false = true) → P := fun hf => absurd hf (by simp)
  have hkeeps := (api.sseStreamUpdate_keeps cfg.hasTools false hfull hn hlen h.stream hfin).2
  have hspec := api.held_spec cfg.hasTools false hfull hn hlen (Nat.le_refl _) h.stream hfin
  rw [← htake] at hkeeps hspec
  obtain ⟨hshort, -, hawaits⟩ := hspec
  refine ⟨fun d hd => ?_, fun b hb => ?_, fun hok => ?_, fun hok b hwaits => ?_⟩
  · rcases mem_updateEvents.mp hd with ⟨d', hd', heq⟩ | heq
    · obtain rfl := StreamEvent.sent.inj heq
      exact hkeeps d' hd'
    · exact absurd heq (by simp)
  · rcases mem_updateEvents.mp hb with ⟨d', -, heq⟩ | heq
    · exact absurd heq (by simp)
    · obtain rfl := StreamEvent.held.inj heq
      exact hshort
  · apply Lib.Settled.snoc sent_free
    rintro a ⟨rfl, hne⟩
    refine ⟨hne, ?_⟩
    rw [if_neg hplain, hapi]
    refine ⟨_, List.mem_append_right _ (List.mem_singleton_self _), ?_⟩
    rw [hstream]
    exact hawaits hne
  · obtain ⟨hne, hwaits⟩ := hwaits
    rw [if_neg hplain, hapi] at hwaits
    obtain ⟨c, hc, hwaits⟩ := hwaits
    have hgo := api.sseStreamUpdate_awaits cfg.hasTools false hfull hn hlen (hcuts c hc).1 h.stream
      hne hwaits hfin
    rw [← htake] at hgo
    rcases hgo with hbegins | ⟨-, hsame⟩
    · exact Or.inl (pays_of_begins hbegins fun d hd => mem_updateEvents.mpr (Or.inl ⟨d, hd, rfl⟩))
    · refine Or.inr ⟨hne, ?_⟩
      rw [if_neg hplain, hapi]
      refine ⟨c, mem_cuts_feed hc, ?_⟩
      rw [hstream, hsame]
      exact hwaits

/-- **A token writes** valid text, and pays or still owes what was held. -/
theorem Inv.writes (hfull : Lib.Valid full) (hstops : StopsAtCharacters cfg.stops)
    (h : Inv cfg emit full s) (hvalid : s.dec.sessionValid = true) (hbroken : s.broken = false)
    (hgen : (s.dec.append cfg token).text <+: full) :
    Writes cfg emit full s (s.feed cfg emit token io)
      (tokenEvents cfg emit (s.dec.append cfg token) s.stream) := by
  unfold tokenEvents
  by_cases hplain : cfg.plain = true
  · rw [if_pos hplain]
    exact h.writes_plain hfull hstops hvalid hbroken hgen hplain
  · rw [if_neg hplain]
    cases hapi : cfg.streamApi emit with
    | some api => exact h.writes_live hfull hstops hvalid hbroken hgen hplain hapi
    -- nothing is streamed
    | none =>
      refine ⟨fun d hd => absurd hd List.not_mem_nil, fun b hb => absurd hb List.not_mem_nil,
        fun _ => Lib.Settled.nil, fun _ b hwaits => ?_⟩
      obtain ⟨-, hwaits⟩ := hwaits
      rw [if_neg hplain, hapi] at hwaits
      exact hwaits.elim

/-! ### What a token keeps -/

/-- The stream of the request's API behind a token. -/
theorem Inv.feed_stream (hfull : Lib.Valid full) (h : Inv cfg emit full s)
    (hgen : (s.dec.append cfg token).text <+: full)
    (hlen : (s.dec.append cfg token).streamLen cfg ≤ (s.dec.append cfg token).text.length) :
    StreamInv full (s.feed cfg emit token io).stream := by
  show StreamInv full (tokenStream cfg emit (s.dec.append cfg token) s.stream)
  unfold tokenStream
  cases cfg.streamApi emit with
  | none => exact h.stream
  | some api =>
    have hkeeps := (api.sseStreamUpdate_keeps cfg.hasTools false hfull hgen.length_le hlen h.stream
      (fun hf => absurd hf (by simp))).1
    rw [← List.prefix_iff_eq_take.mp hgen] at hkeeps
    exact hkeeps

/-- The plain stream stands at a cut. -/
theorem Inv.feed_plainPos (h : Inv cfg emit full s) :
    (s.feed cfg emit token io).dec.plainStreamPos = 0 ∨
      ∃ c ∈ (s.feed cfg emit token io).cuts, c.1 = (s.feed cfg emit token io).dec.plainStreamPos := by
  have hold : (s.feed cfg emit token io).dec.plainStreamPos = s.dec.plainStreamPos →
      (s.feed cfg emit token io).dec.plainStreamPos = 0 ∨
        ∃ c ∈ (s.feed cfg emit token io).cuts,
          c.1 = (s.feed cfg emit token io).dec.plainStreamPos := by
    intro heq
    rw [heq]
    rcases h.plainPos with hzero | ⟨c, hc, hpos⟩
    · exact Or.inl hzero
    · exact Or.inr ⟨c, mem_cuts_feed hc, hpos⟩
  cases hok : (s.dec.append cfg token).sendsOk cfg io with
  | false =>
    apply hold
    show (s.dec.feedToken cfg token io).1.plainStreamPos = _
    rw [Decode.feedToken_unsent cfg s.dec token io hok]
    rfl
  | true =>
    have hpos := (Decode.feedToken_sent cfg s.dec token io hok).1
    unfold Decode.advance at hpos
    dsimp only at hpos
    split at hpos
    · exact Or.inr ⟨_, List.mem_append_right _ (List.mem_singleton_self _), hpos.symm⟩
    · exact hold hpos

theorem feed_generated (hwhole : s.dec.text = s.generated cfg) :
    (s.feed cfg emit token io).generated cfg = (s.dec.append cfg token).text := by
  have hrendered := (Decode.feedToken_spec cfg s.dec token io).2.1
  show (s.dec.feedToken cfg token io).1.rendered.flatMap cfg.tokenText = _
  rw [hrendered, List.flatMap_append, Decode.append_text, hwhole, List.flatMap_singleton]
  rfl

theorem feed_broken (hbroken : s.broken = false) :
    (s.feed cfg emit token io).broken = !(s.dec.append cfg token).sendsOk cfg io := by
  show (s.broken || !(s.dec.append cfg token).sendsOk cfg io) = _
  rw [hbroken, Bool.false_or]

/-- Only a stop sequence invalidates the session, and the text is cut there. -/
theorem feed_stopped (hvalid : s.dec.sessionValid = true)
    (h : (s.feed cfg emit token io).dec.sessionValid = false) :
    ∃ pos, (s.dec.append cfg token).hitStop cfg = some pos ∧
      (s.feed cfg emit token io).dec.text = (s.dec.append cfg token).text.take pos := by
  have hne : (s.feed cfg emit token io).dec.sessionValid ≠ s.dec.sessionValid := by
    rw [h, hvalid]
    simp
  cases hok : (s.dec.append cfg token).sendsOk cfg io with
  | false =>
    refine absurd ?_ hne
    show (s.dec.feedToken cfg token io).1.sessionValid = _
    rw [Decode.feedToken_unsent cfg s.dec token io hok]
    rfl
  | true =>
    obtain ⟨-, -, hsome, hnone⟩ := Decode.feedToken_sent cfg s.dec token io hok
    cases hstop : (s.dec.append cfg token).hitStop cfg with
    | some pos => exact ⟨pos, rfl, (hsome pos hstop).1⟩
    | none => exact absurd (hnone hstop).2 hne

/-- If the loop goes on behind a token, its writes have succeeded and no stop sequence was found. -/
theorem feed_goesOn (hvalid : s.dec.sessionValid = true) (hbroken : s.broken = false)
    (hgo : (s.dec.feedToken cfg token io).2 = false) :
    (s.feed cfg emit token io).dec.sessionValid = true ∧
      (s.feed cfg emit token io).broken = false := by
  cases hok : (s.dec.append cfg token).sendsOk cfg io with
  | false =>
    rw [Decode.feedToken_unsent cfg s.dec token io hok] at hgo
    exact absurd hgo (by simp)
  | true =>
    obtain ⟨-, -, hsome, hnone⟩ := Decode.feedToken_sent cfg s.dec token io hok
    cases hstop : (s.dec.append cfg token).hitStop cfg with
    | some pos =>
      rw [(hsome pos hstop).2.2] at hgo
      exact absurd hgo (by simp)
    | none =>
      refine ⟨(hnone hstop).2.trans hvalid, ?_⟩
      rw [feed_broken hbroken, hok]
      rfl

/-- **A token keeps the invariant.** -/
theorem Inv.feed (hfull : Lib.Valid full) (hstops : StopsAtCharacters cfg.stops)
    (h : Inv cfg emit full s) (hvalid : s.dec.sessionValid = true) (hbroken : s.broken = false)
    (token : Nat) (io : SendIo) (hgen : (s.feed cfg emit token io).generated cfg <+: full) :
    Inv cfg emit full (s.feed cfg emit token io) := by
  have hgenerated : (s.feed cfg emit token io).generated cfg = (s.dec.append cfg token).text :=
    feed_generated (h.whole hvalid)
  rw [hgenerated] at hgen
  obtain ⟨hbound, hcl, hwidth, hlimit, hcuts, -, -, -, hhits⟩ :=
    h.cut hfull hstops hvalid hbroken token hgen
  have hwrites : Writes cfg emit full s (s.feed cfg emit token io)
    (tokenEvents cfg emit (s.dec.append cfg token) s.stream) :=
    h.writes hfull hstops hvalid hbroken hgen
  have hsent : (s.feed cfg emit token io).broken = false → _ := fun hok =>
    Decode.feedToken_sent cfg s.dec token io (sendsOk_of_feed hok)
  -- the old cuts and the new one
  have hcut : ∀ c ∈ (s.feed cfg emit token io).cuts, (Lib.Boundary full c.1 ∧ c.1 ≤ c.2 ∧
      c.2 ≤ c.1 + 3) ∧ c.2 ≤ (s.dec.append cfg token).stopLimit cfg := by
    intro c hc
    rcases List.mem_append.mp hc with hold | hnew
    · exact ⟨h.cuts c hold, (hcuts c hold).2⟩
    · rw [List.mem_singleton.mp hnew]
      exact ⟨⟨hbound, hcl, hwidth⟩, Nat.le_refl _⟩
  refine ⟨h.feed_plainPos, h.feed_stream hfull hgen (Nat.le_trans hcl hlimit), ?_, ?_,
    fun c hc => (hcut c hc).1, ?_, ?_, ?_, ?_, ?_⟩
  · intro d hd
    rcases List.mem_append.mp hd with hold | hnew
    · exact h.sent d hold
    · exact hwrites.sent d hnew
  · intro b hb
    rcases List.mem_append.mp hb with hold | hnew
    · exact h.short b hold
    · exact hwrites.short b hnew
  · intro hv
    rw [hgenerated]
    exact ((Decode.feedToken_spec cfg s.dec token io).2.2.2 hv).2
  · intro hv
    obtain ⟨pos, hstop, htext⟩ := feed_stopped hvalid hv
    obtain ⟨heq, -, hpos⟩ := hhits pos hstop
    rw [htext, List.length_take, Nat.min_eq_left hpos]
    exact ⟨(List.take_prefix _ _).trans hgen, heq ▸ hbound⟩
  · intro hok c hc
    obtain ⟨-, hle⟩ := hcut c hc
    obtain ⟨-, -, hsome, hnone⟩ := hsent hok
    cases hstop : (s.dec.append cfg token).hitStop cfg with
    | some pos =>
      obtain ⟨-, hlim, hpos⟩ := hhits pos hstop
      have htext : (s.feed cfg emit token io).dec.text = _ := (hsome pos hstop).1
      rw [htext, List.length_take, Nat.min_eq_left hpos]
      omega
    | none =>
      have htext : (s.feed cfg emit token io).dec.text = _ := (hnone hstop).1
      rw [htext]
      omega
  · intro hok
    exact (h.settled hbroken).append (hwrites.settled hok) (hwrites.goesOn hok)
  · intro hv hok
    apply (h.scanned hvalid hbroken).feedToken token io (sendsOk_of_feed hok)
    cases hstop : (s.dec.append cfg token).hitStop cfg with
    | none => rfl
    | some pos =>
      have hinvalid : (s.feed cfg emit token io).dec.sessionValid = false :=
        ((hsent hok).2.2.1 pos hstop).2.1
      rw [hinvalid] at hv
      exact absurd hv (by simp)

/-! ### The run -/

variable {max : Nat} {toks : List (Nat × SendIo)}

theorem generated_mono {s s' : Live} (h : s.dec.rendered <+: s'.dec.rendered) :
    s.generated cfg <+: s'.generated cfg := by
  obtain ⟨t, ht⟩ := h
  unfold generated
  rw [← ht, List.flatMap_append]
  exact List.prefix_append _ _

theorem rendered_feed : (s.feed cfg emit token io).dec.rendered = s.dec.rendered ++ [token] :=
  (Decode.feedToken_spec cfg s.dec token io).2.1

theorem rendered_walkBatch : s.dec.rendered <+: (walkBatch cfg emit max s toks).dec.rendered := by
  induction toks generalizing s with
  | nil => exact List.prefix_refl _
  | cons tok toks ih =>
    rcases tok with ⟨token, io⟩
    have hfeed : s.dec.rendered <+: (s.feed cfg emit token io).dec.rendered := by
      rw [rendered_feed]
      exact List.prefix_append _ _
    rw [walkBatch]
    split
    · split
      · exact List.prefix_refl _
      · dsimp only
        split
        · exact hfeed
        · exact hfeed.trans ih
    · exact List.prefix_refl _

theorem rendered_iterate (it : Iteration) :
    s.dec.rendered <+: (iterate cfg emit max s it).dec.rendered := by
  unfold iterate
  split
  · exact List.prefix_refl _
  split
  · exact List.prefix_refl _
  cases it.evaluated with
  | failed => exact List.prefix_refl _
  | tokens toks => exact rendered_walkBatch (s := { s with dec := s.dec.commit toks })

/-- The loop has not been left by a failed write or at a stop sequence. -/
def Open (s : Live) : Prop := s.dec.ended = false → s.dec.sessionValid = true ∧ s.broken = false

/-- **A batch** keeps the invariant. -/
theorem Inv.walkBatch (hfull : Lib.Valid full) (hstops : StopsAtCharacters cfg.stops)
    (h : Inv cfg emit full s) (hvalid : s.dec.sessionValid = true) (hbroken : s.broken = false)
    (hgen : (walkBatch cfg emit max s toks).generated cfg <+: full) :
    Inv cfg emit full (walkBatch cfg emit max s toks) ∧ Open (walkBatch cfg emit max s toks) := by
  induction toks generalizing s with
  | nil => exact ⟨h, fun _ => ⟨hvalid, hbroken⟩⟩
  | cons tok toks ih =>
    rcases tok with ⟨token, io⟩
    rw [Live.walkBatch] at hgen ⊢
    split at hgen
    case isFalse hmax =>
      rw [if_neg hmax]
      exact ⟨h, fun _ => ⟨hvalid, hbroken⟩⟩
    case isTrue hmax =>
      rw [if_pos hmax]
      split at hgen
      case isTrue heos =>
        rw [if_pos heos]
        exact ⟨h.leave _ rfl rfl rfl rfl rfl, fun hend => absurd hend (by simp)⟩
      case isFalse heos =>
        rw [if_neg heos]
        dsimp only at hgen ⊢
        split at hgen
        case isTrue hstop =>
          rw [if_pos hstop]
          have hinv := h.feed hfull hstops hvalid hbroken token io hgen
          exact ⟨hinv.leave _ rfl rfl rfl rfl rfl, fun hend => absurd hend (by simp)⟩
        case isFalse hgo =>
          rw [if_neg hgo]
          have hinv := h.feed hfull hstops hvalid hbroken token io
            ((generated_mono rendered_walkBatch).trans hgen)
          obtain ⟨hvalid', hbroken'⟩ := feed_goesOn hvalid hbroken (Bool.not_eq_true _ ▸ hgo)
          exact ih hinv hvalid' hbroken' hgen

/-- **An iteration** keeps the invariant. -/
theorem Inv.iterate (hfull : Lib.Valid full) (hstops : StopsAtCharacters cfg.stops)
    (h : Inv cfg emit full s) (hopen : Open s) (it : Iteration)
    (hgen : (iterate cfg emit max s it).generated cfg <+: full) :
    Inv cfg emit full (iterate cfg emit max s it) ∧ Open (iterate cfg emit max s it) := by
  unfold Live.iterate at hgen ⊢
  split at hgen
  case isTrue hstop =>
    rw [if_pos hstop]
    exact ⟨h.leave _ rfl rfl rfl rfl rfl, fun hend => absurd hend (by simp)⟩
  case isFalse hgo =>
    rw [if_neg hgo]
    split at hgen
    case isTrue heos =>
      rw [if_pos heos]
      exact ⟨h.leave _ rfl rfl rfl rfl rfl, fun hend => absurd hend (by simp)⟩
    case isFalse heos =>
      rw [if_neg heos]
      cases hev : it.evaluated with
      | failed => exact ⟨h.leave _ rfl rfl rfl rfl rfl, fun hend => absurd hend (by simp)⟩
      | tokens toks =>
        rw [hev] at hgen
        -- the loop runs, so it has not been left before
        have hrun : s.dec.ended = false := by
          rw [Bool.not_eq_false] at hgo
          unfold Decode.continues at hgo
          simp only [Bool.and_eq_true, Bool.not_eq_true'] at hgo
          exact hgo.1.1.1
        obtain ⟨hvalid, hbroken⟩ := hopen hrun
        exact (h.leave (s.dec.commit toks) rfl rfl rfl rfl rfl).walkBatch hfull hstops hvalid
          hbroken hgen

/-- **Every run** keeps the invariant. -/
theorem Inv.run (hfull : Lib.Valid full) (hstops : StopsAtCharacters cfg.stops)
    (h : Inv cfg emit full s) (hopen : Open s) (its : List Iteration)
    (hgen : (its.foldl (Live.iterate cfg emit max) s).generated cfg <+: full) :
    Inv cfg emit full (its.foldl (Live.iterate cfg emit max) s) := by
  induction its generalizing s with
  | nil => exact h
  | cons it its ih =>
    rw [List.foldl_cons] at hgen ⊢
    have hgrows : ∀ (its : List Iteration) (s : Live),
        s.dec.rendered <+: (its.foldl (Live.iterate cfg emit max) s).dec.rendered := by
      intro its
      induction its with
      | nil => exact fun s => List.prefix_refl _
      | cons it its ih => exact fun s => (rendered_iterate it).trans (ih _)
    obtain ⟨hinv, hopen'⟩ := h.iterate hfull hstops hopen it
      ((generated_mono (hgrows its _)).trans hgen)
    exact ih hinv hopen' hgen

theorem inv_init (hfull : Lib.Valid full) (hstops : StopsAtCharacters cfg.stops)
    (prompt : List Nat) : Inv cfg emit full (init cfg prompt) where
  plainPos := Or.inl rfl
  stream := streamInv_start hfull cfg.thinking
  sent := fun _ hd => absurd hd List.not_mem_nil
  short := fun _ hb => absurd hb List.not_mem_nil
  cuts := fun _ hc => absurd hc List.not_mem_nil
  whole := fun _ => rfl
  stopped := fun hv => absurd hv (by simp [init, Decode.init])
  fits := fun _ _ hc => absurd hc List.not_mem_nil
  settled := fun _ => Lib.Settled.nil
  scanned := fun _ _ =>
    ⟨fun _ hc => absurd hc List.not_mem_nil,
      fun _ => ⟨fun _ hc => absurd hc List.not_mem_nil, Nat.zero_le _⟩,
      fun _ => ⟨rfl, StopsAtCharacters.findFrom_nil hstops⟩⟩

/-! ### Behind the loop -/

/-- Where the text ends behind the loop: between two characters. -/
theorem Inv.ends (hfull : Lib.Valid full) (h : Inv cfg emit full s) (hgen : s.generated cfg = full) :
    s.dec.text <+: full ∧ Lib.Boundary full s.dec.text.length := by
  cases hvalid : s.dec.sessionValid with
  | false => exact h.stopped hvalid
  | true =>
    have hwhole := (h.whole hvalid).trans hgen
    rw [hwhole]
    exact ⟨List.prefix_refl _, Lib.boundary_length hfull⟩

/-- What the last events are: valid text, nothing held, and every debt paid. -/
structure Closes (cfg : DecodeConfig) (emit : Bool) (full : Bytes) (s : Live)
    (es : List StreamEvent) : Prop where
  sent : ∀ d, .sent d ∈ es → Lib.Valid d.text
  held : ∀ b, .held b ∈ es → b = []
  pays : ∀ b, s.Waits cfg emit full b → ∃ e ∈ es, pays e b

/-- **The rest of the plain stream.** -/
theorem Inv.closes_plain (hfull : Lib.Valid full) (h : Inv cfg emit full s)
    (hgen : s.generated cfg = full) (hbroken : s.broken = false) (hplain : cfg.plain = true) :
    Closes cfg emit full s
      (if s.dec.plainStreamPos < s.dec.text.length then
        [.sent (.content (cstr (slice s.dec.text s.dec.plainStreamPos s.dec.text.length)))]
      else []) := by
  obtain ⟨hpre, hend⟩ := h.ends hfull hgen
  have htake := List.prefix_iff_eq_take.mp hpre
  have hstart : Lib.Boundary full s.dec.plainStreamPos := by
    rcases h.plainPos with hzero | ⟨c, hc, heq⟩
    · rw [hzero]
      exact Lib.boundary_zero hfull
    · rw [← heq]
      exact (h.cuts c hc).1
  refine ⟨fun d hd => ?_, fun b hb => ?_, fun b hwaits => ?_⟩
  · split at hd
    · obtain rfl := StreamEvent.sent.inj (List.mem_singleton.mp hd)
      have hslice := valid_slice hstart hend (Nat.le_refl _)
      rw [← htake] at hslice
      exact valid_cstr hslice
    · exact absurd hd List.not_mem_nil
  · split at hb
    · exact absurd (List.mem_singleton.mp hb) (by simp)
    · exact absurd hb List.not_mem_nil
  · obtain ⟨-, hwaits⟩ := hwaits
    rw [if_pos hplain] at hwaits
    obtain ⟨c, hc, hat, hlt⟩ := hwaits
    have hfit := h.fits hbroken c hc
    rw [if_pos (by omega)]
    refine ⟨_, List.mem_singleton_self _, prefix_cstr hat.high.nulFree ?_⟩
    have hslice := hat.prefix_slice hend (by omega) (Nat.le_refl _)
    rw [← htake] at hslice
    exact hslice

/-- **The final update** of a live stream. -/
theorem Inv.closes_live (hfull : Lib.Valid full) (h : Inv cfg emit full s)
    (hgen : s.generated cfg = full) (hbroken : s.broken = false) (hplain : ¬ cfg.plain = true)
    {api : StreamApi} (hapi : cfg.streamApi emit = some api) (recovered : Bool) :
    let st := (api.sseStreamUpdate s.dec.text s.dec.text.length cfg.hasTools s.stream true).1
    Closes cfg emit full s
      (updateEvents cfg api s.dec.text s.dec.text.length s.stream true ++
        (if cfg.api = .responses ∧ recovered = true ∧ st.emitPos < s.dec.text.length then
          [.sent (.content (api.out (slice s.dec.text st.emitPos s.dec.text.length)))] else [])) := by
  intro st
  obtain ⟨hpre, hend⟩ := h.ends hfull hgen
  have htake := List.prefix_iff_eq_take.mp hpre
  have hkeeps := api.sseStreamUpdate_keeps cfg.hasTools true hfull hpre.length_le (Nat.le_refl _)
    h.stream fun _ => hend
  have hspec := api.held_spec cfg.hasTools true hfull hpre.length_le (Nat.le_refl _) (Nat.le_refl _)
    h.stream fun _ => ⟨rfl, hend⟩
  rw [← htake] at hkeeps hspec
  obtain ⟨hstream, hdeltas⟩ := hkeeps
  obtain ⟨-, hnil, -⟩ := hspec
  refine ⟨fun d hd => ?_, fun b hb => ?_, fun b hwaits => ?_⟩
  · rcases List.mem_append.mp hd with hupdate | hrest
    · rcases mem_updateEvents.mp hupdate with ⟨d', hd', heq⟩ | heq
      · obtain rfl := StreamEvent.sent.inj heq
        exact hdeltas d' hd'
      · exact absurd heq (by simp)
    -- what the Responses stream had suppressed
    · split at hrest
      · obtain rfl := StreamEvent.sent.inj (List.mem_singleton.mp hrest)
        have hslice := valid_slice hstream.boundary hend (Nat.le_refl _)
        rw [← htake] at hslice
        exact api.out_valid _ hslice
      · exact absurd hrest List.not_mem_nil
  · rcases List.mem_append.mp hb with hupdate | hrest
    · rcases mem_updateEvents.mp hupdate with ⟨d', -, heq⟩ | heq
      · exact absurd heq (by simp)
      · exact (StreamEvent.held.inj heq).trans (hnil rfl)
    · split at hrest
      · exact absurd (List.mem_singleton.mp hrest) (by simp)
      · exact absurd hrest List.not_mem_nil
  · obtain ⟨hne, hwaits⟩ := hwaits
    rw [if_neg hplain, hapi] at hwaits
    obtain ⟨c, hc, hwaits⟩ := hwaits
    have hlast := Nat.le_trans (h.cuts c hc).2.1 (h.fits hbroken c hc)
    have hgo := api.sseStreamUpdate_awaits cfg.hasTools true hfull hpre.length_le (Nat.le_refl _)
      hlast h.stream hne hwaits fun _ => ⟨rfl, hend⟩
    rw [← htake] at hgo
    rcases hgo with hbegins | ⟨hfalse, -⟩
    · exact pays_of_begins hbegins fun d hd =>
        List.mem_append_left _ (mem_updateEvents.mpr (Or.inl ⟨d, hd, rfl⟩))
    · exact absurd hfalse (by simp)

/-- **Behind the loop** everything that was held is sent. -/
theorem Inv.closes (hfull : Lib.Valid full) (h : Inv cfg emit full s)
    (hgen : s.generated cfg = full) (hbroken : s.broken = false) (recovered : Bool) :
    Closes cfg emit full s (s.finish cfg emit recovered) := by
  unfold finish
  rw [if_neg (by rw [hbroken]; simp)]
  by_cases hplain : cfg.plain = true
  · rw [if_pos hplain]
    exact h.closes_plain hfull hgen hbroken hplain
  · rw [if_neg hplain]
    cases hapi : cfg.streamApi emit with
    | some api => exact h.closes_live hfull hgen hbroken hplain hapi recovered
    | none =>
      refine ⟨fun d hd => absurd hd List.not_mem_nil, fun b hb => absurd hb List.not_mem_nil,
        fun b hwaits => ?_⟩
      obtain ⟨-, hwaits⟩ := hwaits
      rw [if_neg hplain, hapi] at hwaits
      exact hwaits.elim

end Live

/-- **Streamed text is valid UTF-8.**  In every run of the loop that generates a valid text, for
    stop sequences that begin where a character begins: every delta is valid; each cut is a
    character boundary at most three bytes before what stop sequences allow, and no update holds
    back more; and unless a write fails, everything that was held back begins a later delta, and
    the text at the end is not shorter than any limit. -/
theorem streamed_utf8 (cfg : DecodeConfig) (emit recovered : Bool) (prompt : List Nat)
    (its : List Iteration) (hstops : StopsAtCharacters cfg.stops) :
    let live := its.foldl (Live.iterate cfg emit (Decode.limit cfg prompt)) (Live.init cfg prompt)
    let events := live.events ++ live.finish cfg emit recovered
    Lib.Valid (live.generated cfg) →
      (∀ d, .sent d ∈ events → Lib.Valid d.text) ∧
      (∀ b, .held b ∈ events → b.length ≤ 3) ∧
      (∀ c ∈ live.cuts, Lib.Boundary (live.generated cfg) c.1 ∧ c.1 ≤ c.2 ∧ c.2 ≤ c.1 + 3) ∧
      (live.broken = false →
        Lib.Settled owes pays (fun _ => False) events ∧ ∀ c ∈ live.cuts, c.2 ≤ live.dec.text.length) := by
  intro live events hfull
  have hinv : Live.Inv cfg emit (live.generated cfg) live :=
    (Live.inv_init hfull hstops prompt).run hfull hstops (fun _ => ⟨rfl, rfl⟩) its
      (List.prefix_refl _)
  have hbrokenNil : live.broken = true → live.finish cfg emit recovered = [] := by
    intro hb
    unfold Live.finish
    rw [if_pos hb]
  refine ⟨fun d hd => ?_, fun b hb => ?_, hinv.cuts, fun hok => ⟨?_, hinv.fits hok⟩⟩
  · rcases List.mem_append.mp hd with hold | hnew
    · exact hinv.sent d hold
    · cases hbroken : live.broken with
      | false => exact (hinv.closes hfull rfl hbroken recovered).sent d hnew
      | true =>
        rw [hbrokenNil hbroken] at hnew
        exact absurd hnew List.not_mem_nil
  · rcases List.mem_append.mp hb with hold | hnew
    · exact hinv.short b hold
    · cases hbroken : live.broken with
      | false =>
        rw [(hinv.closes hfull rfl hbroken recovered).held b hnew]
        exact Nat.zero_le _
      | true =>
        rw [hbrokenNil hbroken] at hnew
        exact absurd hnew List.not_mem_nil
  · have hcloses := hinv.closes hfull rfl hok recovered
    apply (hinv.settled hok).append (Lib.Settled.of_free ?_) (fun b hwaits => Or.inl (hcloses.pays b hwaits))
    rintro (d | b) he a
    · exact id
    · rintro ⟨rfl, hne⟩
      exact hne (hcloses.held b he)

/-- A streamed completion: token 1 is the first byte of an accented letter, token 2 the second. -/
def accentRequest (stops : StopList) : DecodeConfig :=
  { plainRequest with
    stream := true
    stops := stops
    tokenText := fun token => if token = 1 then [0xc3] else [0xa9] }

/-- The letter arrives in two tokens, and is sent as one. -/
theorem streamed_utf8_accent :
    let live := [sampleOne [1], sampleOne [2]].foldl
      (Live.iterate (accentRequest []) false (Decode.limit (accentRequest []) [7]))
      (Live.init (accentRequest []) [7])
    let events := live.events ++ live.finish (accentRequest []) false false
    events = [.held [0xc3], .sent (.content [0xc3, 0xa9]), .held []] ∧
      (∀ d, .sent d ∈ events → Lib.Valid d.text) ∧ (∀ b, .held b ∈ events → b.length ≤ 3) ∧
      Lib.Settled owes pays (fun _ => False) events := by
  have hvalid : Lib.Valid [0xc3, 0xa9] := ⟨['é'], by decide⟩
  obtain ⟨hsent, hheld, -, hsettled⟩ := streamed_utf8 (accentRequest []) false false [7]
    [sampleOne [1], sampleOne [2]] (fun p hp => absurd hp List.not_mem_nil) hvalid
  exact ⟨by decide, hsent, hheld, (hsettled (by decide)).1⟩

/-- **A stop sequence inside a letter.** The text before it is sent, which is half of the letter. -/
theorem stop_inside_character :
    let live := [sampleOne [1], sampleOne [2]].foldl
      (Live.iterate (accentRequest [[0xa9]]) false (Decode.limit (accentRequest [[0xa9]]) [7]))
      (Live.init (accentRequest [[0xa9]]) [7])
    Lib.Valid (live.generated (accentRequest [[0xa9]])) ∧
      ∃ d, .sent d ∈ live.events ++ live.finish (accentRequest [[0xa9]]) false false ∧
        ¬ Lib.Valid d.text := by
  refine ⟨⟨['é'], by decide⟩, .content [0xc3], by decide, ?_⟩
  exact Lib.not_valid_singleton (by decide)

end DS4.Server
