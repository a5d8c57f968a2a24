import DS4.Engine.Session

namespace DS4.Engine

/-!
# Engine — session payloads

`ds4_session_save_payload` writes the live rows of the caches in logical order,
`ds4_session_load_payload` puts them back into the slots of the current ring.  The load validates
as it reads: the header and the tokens come first, the logits go straight into the session, and
the caches are overwritten before the last check.

* `Payload.Faithful` — the payload is that of a history.
* `savePayload_faithful`, `loadPayload_sound` — a payload saved from a coherent session loads
  into a coherent session; a load that fails early enough changes nothing.
-/

/-- A session payload: the header fields that are compared, the tokens, the logits and the
    caches. -/
structure Payload (net : Network) where
  ctxSize : Nat
  prefillCap : Nat
  rawCap : Nat
  rawWindow : Nat
  compCap : Nat
  rawLive : Nat
  tokens : List Nat
  logits : net.Logits
  nComp : net.Stream → Nat
  /-- the live raw rows, oldest first -/
  raw : net.Layer → Nat → net.Row
  comp : net.Stream → Nat → net.Row
  front : net.Stream → net.Front

variable {net : Network}

/-- `session_raw_live_rows` -/
def rawLiveRows (net : Network) (tokens : Nat) : Nat := min (min net.rawWindow net.rawCap) tokens

/-- How a load whose header is accepted goes on. -/
inductive LoadIo (net : Network) where
  /-- everything is read; the flag is the reset of the Flash-MoE slot cache at the end -/
  | ok (slotCache : Bool)
  /-- the tokens cannot be read -/
  | tokens
  /-- the logits or the counters cannot be read, or the counters do not fit -/
  | logits (junk : net.Logits)
  /-- the caches cannot be read, or bytes are left over -/
  | caches (junk : Kv net)

namespace Payload

variable (p : Payload net)

/-- The comparisons of the header with the runtime. -/
def headerFits (cfg : Config) : Bool :=
  decide (p.ctxSize ≤ cfg.ctxSize) && decide (p.tokens.length < cfg.ctxSize) &&
    p.prefillCap == cfg.prefillCap && p.rawWindow == net.rawWindow &&
    p.rawLive == min p.tokens.length p.rawWindow && decide (0 < p.rawCap) &&
    decide (p.rawLive ≤ p.rawCap) && decide (p.rawLive ≤ net.rawCap) &&
    decide (p.compCap ≤ cfg.compCap)

/-- The payload is that of its tokens. -/
structure Faithful : Prop where
  rawLive : p.rawLive = min p.tokens.length net.rawWindow
  raw : ∀ l r, r < p.rawLive →
    p.raw l r = net.row l (p.tokens.take (p.tokens.length - p.rawLive + r + 1))
  nComp : ∀ s, p.nComp s = (net.comp s p.tokens).length
  comp : ∀ s j (hj : j < (net.comp s p.tokens).length), p.comp s j = (net.comp s p.tokens)[j]
  front : ∀ s, p.front s = net.front s p.tokens
  logits : p.logits = net.logits p.tokens

end Payload

namespace Session

/-- `ds4_session_save_payload`; nothing is saved without a valid checkpoint. -/
def savePayload (cfg : Config) (s : Session net) : Option (Payload net) :=
  if s.checkpointValid then
    let n := s.checkpoint.length
    let live := rawLiveRows net n
    some
      { ctxSize := cfg.ctxSize
        prefillCap := cfg.prefillCap
        rawCap := net.rawCap
        rawWindow := net.rawWindow
        compCap := cfg.compCap
        rawLive := live
        tokens := s.checkpoint
        logits := s.logits
        nComp := s.kv.nComp
        raw := fun l r => s.kv.raw l ((n - live + r) % net.rawCap)
        comp := s.kv.comp
        front := s.kv.front }
  else none

/-- The caches after all of the payload has been read. -/
def loadKv (kv : Kv net) (p : Payload net) : Kv net where
  raw := fun l =>
    Lib.fill net.rawCap (p.tokens.length - p.rawLive) (p.raw l) p.rawLive (kv.raw l)
  comp := fun s j => if j < p.nComp s then p.comp s j else kv.comp s j
  nComp := p.nComp
  front := p.front

/-- `ds4_session_load_payload`; the flag is success.  On the GPU the old checkpoint stays valid
    until the new one replaces it, on the CPU until the caches are about to be read. -/
def loadPayload (cfg : Config) (s : Session net) (p : Payload net) (io : LoadIo net) :
    Session net × Bool :=
  if p.headerFits cfg = false then (s, false)
  else
    match io with
    | .tokens => (s, false)
    | .logits junk => ({ s with logits := junk }, false)
    | .caches junk =>
      if cfg.cpu then
        ({ s with
          kv := junk, logits := p.logits, checkpointValid := false, mtpDraft := none }, false)
      else ({ s with kv := { junk with nComp := s.kv.nComp }, logits := p.logits }, false)
    | .ok slotCache =>
      ({ checkpoint := p.tokens
         checkpointValid := true
         kv := loadKv s.kv p
         logits := p.logits
         mtpDraft := none }, cfg.cpu || slotCache)

variable {s : Session net}

/-- **Saving.** The payload of a sound session is that of its tokens. -/
theorem savePayload_faithful {cfg : Config} (hs : s.Sound) {p : Payload net}
    (h : s.savePayload cfg = some p) : p.Faithful := by
  unfold savePayload at h
  split at h
  · rename_i hv
    obtain ⟨hk, hl⟩ := hs hv
    obtain rfl := Option.some.inj h
    have hwin := net.window_le
    have hlive : rawLiveRows net s.checkpoint.length = min s.checkpoint.length net.rawWindow := by
      unfold rawLiveRows
      omega
    refine ⟨hlive, ?_, hk.fronts.nComp, hk.rows.comp, hk.fronts.front, hl⟩
    intro l r hr
    have hr' : r < rawLiveRows net s.checkpoint.length := hr
    rw [hlive] at hr'
    -- the row is one of the window
    show s.kv.raw l ((s.checkpoint.length - rawLiveRows net s.checkpoint.length + r) % net.rawCap)
      = net.row l
        (s.checkpoint.take (s.checkpoint.length - rawLiveRows net s.checkpoint.length + r + 1))
    rw [hlive]
    exact hk.rows.raw l _ (by omega) (by omega)
  · exact absurd h (by simp)

/-- The caches read from a faithful payload are those of its tokens. -/
theorem holds_loadKv {p : Payload net} (hp : p.Faithful) (kv : Kv net) :
    Holds net p.tokens (loadKv kv p) := by
  have hwin := net.window_le
  have hlive := hp.rawLive
  refine ⟨⟨?_, ?_⟩, ⟨hp.nComp, hp.front⟩⟩
  · intro l pos hpos hwindow
    have hfill := Lib.fill_get net.rawCap (p.tokens.length - p.rawLive) (p.raw l) (kv.raw l)
      (k := p.rawLive) (by omega) (r := pos - (p.tokens.length - p.rawLive)) (by omega)
    have hidx : p.tokens.length - p.rawLive + (pos - (p.tokens.length - p.rawLive)) = pos := by
      omega
    rw [hidx] at hfill
    show Lib.fill net.rawCap (p.tokens.length - p.rawLive) (p.raw l) p.rawLive (kv.raw l) _ = _
    rw [hfill, hp.raw l _ (by omega), hidx]
  · intro s j hj
    show (if j < p.nComp s then p.comp s j else kv.comp s j) = _
    rw [hp.nComp s, if_pos hj]
    exact hp.comp s j hj

/-- **Loading.** A load of a faithful payload is sound, unless it fails after it has begun to
    overwrite a session that stays valid. -/
theorem loadPayload_sound {cfg : Config} (hs : s.Sound) {p : Payload net} (hp : p.Faithful)
    {io : LoadIo net}
    (hlogits : ∀ junk, io = .logits junk → s.checkpointValid = false)
    (hcaches : ∀ junk, io = .caches junk → cfg.cpu = true ∨ s.checkpointValid = false) :
    (s.loadPayload cfg p io).1.Sound := by
  unfold loadPayload
  split
  · exact hs
  cases io with
  | tokens => exact hs
  | logits junk =>
    intro hv
    have hv' : s.checkpointValid = true := hv
    rw [hlogits junk rfl] at hv'
    exact absurd hv' (by simp)
  | caches junk =>
    dsimp only
    split
    · exact fun hv => absurd hv (by simp)
    · rename_i hcpu
      obtain hc | hinv := hcaches junk rfl
      · exact absurd hc hcpu
      · intro hv
        have hv' : s.checkpointValid = true := hv
        rw [hinv] at hv'
        exact absurd hv' (by simp)
  | ok slotCache => exact fun _ => ⟨holds_loadKv hp s.kv, hp.logits⟩

end Session

end DS4.Engine
