import DS4.FlashMoe.SlotAssignment

namespace DS4.FlashMoe

/-!
# Flash-MoE — slot assignment: six-slot baseline, prefetch, and the whole step

* `sixSlotLoop_assigns` — the six-slot baseline.
* `prefetchLoop_routeInv`, `finishLoads_holds` — the prefetch path; `RouteInv` and `FinishInv`
  are its loop invariants.
* `decode_step_assigns` — all paths of a decode step together.
* `decode_step_exceptions` — the two cases that statement leaves out: the six-slot baseline
  loads a repeated expert twice, and a slot of age `UINT64_MAX` is never evicted.
-/

variable {ρ : Type} {cfg : Config} {sidecar : Nat → ρ} {b : Bank ρ} {ids : List Nat}

/-! ### The six-slot baseline -/

/-- A six-slot load that succeeds. -/
theorem sixSlotLoad_tables (sidecar : Nat → ρ) {io : InstallIo ρ} (hio : io.Succeeds) {e k : Nat}
    (he : e < cfg.nExpert) :
    ∃ b', sixSlotLoad cfg sidecar io b e k = (b', some k) ∧
      b'.l1.slotToExpert = Function.update b.l1.slotToExpert k (some e) ∧ b'.l1.Holds e k ∧
      ∀ e' s', b.l1.Holds e' s' → e' ≠ e → s' ≠ k → b'.l1.Holds e' s' := by
  obtain ⟨hst, hsrc⟩ := fillFromFile_frame cfg sidecar io b e k
  obtain ⟨src, hx⟩ := hio.fileSource cfg
  rw [hx] at hsrc
  unfold sixSlotLoad
  rw [if_neg (not_not_intro he)]
  dsimp only
  rw [hsrc]
  dsimp only
  rw [if_neg (by simp [hio.markModified])]
  refine ⟨_, rfl, ?_, ?_, ?_⟩
  · simp [Bank.commitDecodeSlot, hst.slotToExpert]
  · exact Level.commit_holds_self ..
  · intro e' s' hh hne hns
    have hfill : (fillFromFile cfg sidecar io b e k).1.l1.Holds e' s' :=
      ⟨by rw [hst.slotToExpert]; exact hh.1, by rw [hst.expertToSlot]; exact hh.2⟩
    refine Level.commit_holds_of_ne _ _ ?_ hne hns
    exact ⟨by simpa using hfill.1, Level.unmap_expertToSlot_of_ne _ _ _ hfill.2 hns⟩

/-- **The six-slot loop**: position `k` takes slot `k`, and names its expert there; experts that
    are not asked for twice keep their slot. -/
theorem sixSlotLoop_assigns (sidecar : Nat → ρ) {io : Nat → InstallIo ρ}
    (hio : ∀ k, (io k).Succeeds) (es : List Nat) (hes : ∀ e ∈ es, e < cfg.nExpert) (k : Nat) (b : Bank ρ) :
    ∃ b', sixSlotLoop cfg sidecar io k b es = (b', some (List.range' k es.length)) ∧
      (∀ t < k, b'.l1.slotToExpert t = b.l1.slotToExpert t) ∧
      (∀ i (hi : i < es.length), b'.l1.slotToExpert (k + i) = some es[i]) ∧
      (∀ e' s', b.l1.Holds e' s' → e' ∉ es → s' < k → b'.l1.Holds e' s') ∧
      (es.Nodup → List.Forall₂ b'.l1.Holds es (List.range' k es.length)) := by
  induction es generalizing k b with
  | nil => exact ⟨b, rfl, fun _ _ => rfl, by simp, fun _ _ h _ _ => h, fun _ => List.Forall₂.nil⟩
  | cons e es ih =>
    obtain ⟨b₁, hload, hte, hself, hkeep⟩ :=
      sixSlotLoad_tables sidecar (b := b) (k := k) (hio k) (hes e List.mem_cons_self)
    obtain ⟨b₂, hloop, hlow, hat, hold, hnodup⟩ :=
      ih (fun x hx => hes x (List.mem_cons_of_mem _ hx)) (k + 1) b₁
    refine ⟨b₂, ?_, ?_, ?_, ?_, ?_⟩
    · unfold sixSlotLoop
      rw [hload]
      dsimp only
      rw [hloop]
      rfl
    · intro t ht
      rw [hlow t (by omega), hte, Function.update_of_ne (by omega)]
    · intro i hi
      cases i with
      | zero =>
        rw [Nat.add_zero, hlow k (by omega), hte]
        simp
      | succ i =>
        have := hat i (by simpa using hi)
        rw [show k + (i + 1) = k + 1 + i by omega]
        simpa using this
    · intro e' s' hh hn hs
      have hn' : e' ≠ e ∧ e' ∉ es := by simpa using hn
      exact hold e' s' (hkeep e' s' hh hn'.1 (by omega)) hn'.2 (by omega)
    · intro hnd
      obtain ⟨hn, hnd'⟩ := List.nodup_cons.mp hnd
      exact List.Forall₂.cons (hold e k hself hn (by omega)) (hnodup hnd')

/-- The six-slot loop keeps a sound bank sound. -/
theorem sixSlotLoop_sound {io : Nat → InstallIo ρ} (hio : ∀ k, (io k).Succeeds)
    (hid : cfg.identity = false) (es : List Nat) (k : Nat) (b : Bank ρ)
    (h : b.Sound cfg sidecar fun _ => False) :
    (sixSlotLoop cfg sidecar io k b es).1.Sound cfg sidecar fun _ => False := by
  induction es generalizing k b with
  | nil => exact h
  | cons e es ih =>
    have hone := sixSlotLoad_sound (e := e) (k := k) (io k) h hid fun hf =>
      absurd hf ((hio k).not_fails ((hio k).fileSource cfg))
    unfold sixSlotLoop
    cases hi : sixSlotLoad cfg sidecar (io k) b e k with
    | mk b₁ out =>
      rw [hi] at hone
      cases out with
      | none => exact hone
      | some s =>
        dsimp only
        have hrest := ih (k + 1) b₁ hone
        cases hl : sixSlotLoop cfg sidecar io (k + 1) b₁ es with
        | mk b₂ out₂ =>
          rw [hl] at hrest
          cases out₂ <;> exact hrest

/-! ### Routing a prefetch -/

/-- Slot `s` holds expert `e`, and has its record. -/
def Bank.Has (sidecar : Nat → ρ) (b : Bank ρ) (e s : Nat) : Prop :=
  b.l1.Holds e s ∧ b.l1.bytes s = sidecar e

/-- The invariant of the routing loop.  A routed expert is resident, or one of the loads will
    bring it; slots that are not reserved can still be aged out. -/
structure RouteInv (cfg : Config) (sidecar : Nat → ρ) (st : Routing ρ) : Prop where
  sound : st.Sound cfg sidecar cfg.prefetchScratchOnly
  reserved : ∀ s, st.reservedSlots s = true ↔ ∃ r ∈ st.routes, r.2 = s
  functional : ∀ r ∈ st.routes, ∀ r' ∈ st.routes, r.1 = r'.1 ↔ r.2 = r'.2
  inRange : ∀ r ∈ st.routes, r.2 < cfg.slotBank
  settled : ∀ r ∈ st.routes, st.bank.Has sidecar r.1 r.2 ∨
    ∃ l ∈ st.loads, l.expert = r.1 ∧ l.slot = r.2
  loads : ∀ l ∈ st.loads, (l.expert, l.slot) ∈ st.routes ∧ l.job.complete = true
  length : st.loads.length ≤ st.routes.length
  aged : ∀ s < cfg.slotBank, st.reservedSlots s = false → st.bank.l1.slotAge s ≠ UINT64_MAX
  identity : cfg.identity = true → ∀ r ∈ st.routes, r.2 = r.1

/-- Fewer routes than slots leave a slot that is not reserved. -/
theorem RouteInv.exists_free {st : Routing ρ} (h : RouteInv cfg sidecar st)
    (hlen : st.routes.length < cfg.slotBank) :
    ∃ i < cfg.slotBank, st.reservedSlots i = false := by
  by_contra hno
  have hall : ∀ i < cfg.slotBank, i ∈ st.routes.map Prod.snd := by
    intro i hi
    have hr : st.reservedSlots i = true := by
      by_contra hn
      exact hno ⟨i, hi, by simpa using hn⟩
    obtain ⟨r, hrm, rfl⟩ := (h.reserved i).mp hr
    exact List.mem_map_of_mem hrm
  have hle := le_length_of_injOn id hall (fun _ _ _ _ hij => hij)
  have hcard := (st.routes.map Prod.snd).toFinset_card_le
  rw [List.length_map] at hcard
  omega

/-- **A new route.** The expert has no route yet and the slot is not reserved; the bank changes
    in that slot only, and either has the record already or a load for it is started. -/
theorem RouteInv.extend {st st' : Routing ρ} {e s : Nat} {n : List (Load ρ)}
    (h : RouteInv cfg sidecar st) (he : ∀ r ∈ st.routes, r.1 ≠ e)
    (hs : st.reservedSlots s = false) (hlt : s < cfg.slotBank)
    (hid : cfg.identity = true → s = e)
    (hroutes : st'.routes = st.routes ++ [(e, s)])
    (hres : st'.reservedSlots = Function.update st.reservedSlots s true)
    (hloads : st'.loads = st.loads ++ n)
    (hnew : n.length ≤ 1 ∧ ∀ l ∈ n, l.expert = e ∧ l.slot = s ∧ l.job.complete = true)
    (hhas : n ≠ [] ∨ st'.bank.Has sidecar e s)
    (hkeep : ∀ e' s', e' ≠ e → s' ≠ s → st.bank.Has sidecar e' s' → st'.bank.Has sidecar e' s')
    (hage : ∀ t, t ≠ s → st'.bank.l1.slotAge t = st.bank.l1.slotAge t)
    (hsound : st'.Sound cfg sidecar cfg.prefetchScratchOnly) : RouteInv cfg sidecar st' := by
  have hne : ∀ r ∈ st.routes, r.2 ≠ s := by
    rintro r hr rfl
    rw [(h.reserved r.2).mpr ⟨r, hr, rfl⟩] at hs
    cases hs
  refine ⟨hsound, ?_, ?_, ?_, ?_, ?_, ?_, ?_, ?_⟩
  · intro t
    rw [hres, hroutes]
    by_cases hts : t = s
    · subst hts
      simp
    · rw [Function.update_of_ne hts, h.reserved t]
      simp [Ne.symm hts]
  · rw [hroutes]
    intro r hr r' hr'
    rcases List.mem_append.mp hr with hr | hr <;> rcases List.mem_append.mp hr' with hr' | hr'
    · exact h.functional r hr r' hr'
    · rw [List.mem_singleton.mp hr']
      exact ⟨fun heq => absurd heq (he r hr), fun heq => absurd heq (hne r hr)⟩
    · rw [List.mem_singleton.mp hr]
      exact ⟨fun heq => absurd heq.symm (he r' hr'), fun heq => absurd heq.symm (hne r' hr')⟩
    · rw [List.mem_singleton.mp hr, List.mem_singleton.mp hr']
      simp
  · rw [hroutes]
    intro r hr
    rcases List.mem_append.mp hr with hr | hr
    · exact h.inRange r hr
    · rw [List.mem_singleton.mp hr]
      exact hlt
  · rw [hroutes, hloads]
    intro r hr
    rcases List.mem_append.mp hr with hr | hr
    · rcases h.settled r hr with hh | ⟨l, hl, hle, hls⟩
      · exact Or.inl (hkeep r.1 r.2 (he r hr) (hne r hr) hh)
      · exact Or.inr ⟨l, List.mem_append_left _ hl, hle, hls⟩
    · rw [List.mem_singleton.mp hr]
      rcases hhas with hn | hh
      · obtain ⟨l, hl⟩ := List.exists_mem_of_ne_nil n hn
        obtain ⟨hle, hls, -⟩ := hnew.2 l hl
        exact Or.inr ⟨l, List.mem_append_right _ hl, hle, hls⟩
      · exact Or.inl hh
  · rw [hroutes, hloads]
    intro l hl
    rcases List.mem_append.mp hl with hl | hl
    · obtain ⟨hm, hc⟩ := h.loads l hl
      exact ⟨List.mem_append_left _ hm, hc⟩
    · obtain ⟨hle, hls, hc⟩ := hnew.2 l hl
      exact ⟨by simp [hle, hls], hc⟩
  · rw [hroutes, hloads, List.length_append, List.length_append]
    have := h.length
    have := hnew.1
    simp only [List.length_singleton]
    omega
  · intro t ht hr
    rw [hres] at hr
    by_cases hts : t = s
    · rw [hts, Function.update_self] at hr
      cases hr
    · rw [Function.update_of_ne hts] at hr
      rw [hage t hts]
      exact h.aged t ht hr
  · intro hi r hr
    rw [hroutes] at hr
    rcases List.mem_append.mp hr with hr | hr
    · exact h.identity hi r hr
    · rw [List.mem_singleton.mp hr]
      exact hid hi

/-- A repeated expert gets the slot it has. -/
theorem RouteInv.repeat {st : Routing ρ} (h : RouteInv cfg sidecar st) {r : Nat × Nat}
    (hr : r ∈ st.routes) : RouteInv cfg sidecar (st.assign r.1 r.2) := by
  have hmem : ∀ x, x ∈ st.routes ++ [(r.1, r.2)] ↔ x ∈ st.routes := by
    intro x
    constructor
    · intro hx
      rcases List.mem_append.mp hx with hx | hx
      · exact hx
      · rwa [List.mem_singleton.mp hx]
    · exact List.mem_append_left _
  have hres : Function.update st.reservedSlots r.2 true = st.reservedSlots := by
    rw [Function.update_eq_self_iff]
    exact ((h.reserved r.2).mpr ⟨r, hr, rfl⟩).symm
  have hlen := h.length
  refine ⟨h.sound.assign _ _, ?_, ?_, ?_, ?_, ?_, ?_, ?_, ?_⟩ <;>
    simp only [Routing.assign, hres, hmem]
  · exact h.reserved
  · exact h.functional
  · exact h.inRange
  · exact h.settled
  · exact h.loads
  · simp only [List.length_append, List.length_singleton]
    omega
  · exact h.aged
  · exact h.identity

/-- The slot of a routed expert comes from one of the routes. -/
theorem Routing.slotOf_eq_some {st : Routing ρ} {e s : Nat} (h : st.slotOf e = some s) :
    (e, s) ∈ st.routes := by
  unfold Routing.slotOf at h
  obtain ⟨r, hr, hs⟩ := Option.map_eq_some_iff.mp h
  have hm := List.mem_of_find?_eq_some hr
  have he := List.find?_some hr
  simp only [beq_iff_eq] at he
  rw [← he, ← hs]
  exact hm

/-- An expert without a slot has no route. -/
theorem Routing.slotOf_eq_none {st : Routing ρ} {e : Nat} (h : st.slotOf e = none) :
    ∀ r ∈ st.routes, r.1 ≠ e := by
  unfold Routing.slotOf at h
  intro r hr heq
  have := List.find?_eq_none.mp (Option.map_eq_none_iff.mp h) r hr
  simp [heq] at this

/-- All reads and uploads of a prefetch succeed. -/
structure PrefetchIo.Succeeds (io : PrefetchIo ρ) : Prop where
  scratchReady : ∀ li, io.scratchReady li = true
  read : ∀ li, io.read li = .ok
  selectedWrite : io.selectedWrite = true

/-- A load of a prefetch that succeeds changes the bytes of its slot only. -/
theorem startPrefetchLoad_tables (cfg : Config) (sidecar : Nat → ρ) {io : PrefetchIo ρ}
    (hio : io.Succeeds) (st : Routing ρ) (e : Nat) (r : Reserved) :
    ∃ st' l, startPrefetchLoad cfg sidecar io st e r = (st', true) ∧
      st'.routes = st.routes ∧ st'.reservedSlots = st.reservedSlots ∧
      st'.needsSyncPrepare = st.needsSyncPrepare ∧ st'.loads = st.loads ++ [l] ∧
      l.expert = e ∧ l.slot = r.slot ∧ l.job.complete = true ∧
      st'.bank.l1.slotAge = st.bank.l1.slotAge ∧
      ∀ e' s', s' ≠ r.slot → st.bank.Has sidecar e' s' → st'.bank.Has sidecar e' s' := by
  have hl := (l2Lookup_frame cfg st.bank e).1
  unfold startPrefetchLoad
  dsimp only
  rw [if_neg (by simp [hio.scratchReady])]
  refine ⟨_, _, rfl, rfl, rfl, rfl, rfl, rfl, rfl, by simp [hio.read], ?_, ?_⟩
  · dsimp only
    split
    · simp [Bank.setSlot, hl]
    · rw [hl]
  · intro e' s' hs hh
    unfold Bank.Has Level.Holds at hh ⊢
    dsimp only
    split
    · simpa [Bank.setSlot, hl, Function.update_of_ne hs] using hh
    · rw [hl]
      exact hh

/-- **The routing loop of a prefetch**, by induction on the positions that are left: it does not
    fail, keeps its invariant, and unless it asks for a synchronous preparation it routes all of
    them. -/
theorem prefetchLoop_routeInv {io : PrefetchIo ρ} (hio : io.Succeeds)
    (hbank : cfg.expertUsed ≤ cfg.slotBank) (es : List Nat) (hes : ∀ e ∈ es, e < cfg.nExpert)
    (st : Routing ρ) (h : RouteInv cfg sidecar st)
    (hb : cfg.identity = true → ∀ e < cfg.nExpert, st.bank.Backed cfg e)
    (hlen : st.routes.length + es.length ≤ cfg.expertUsed) :
    let r := prefetchLoop cfg sidecar io st es
    r.2 = true ∧ RouteInv cfg sidecar r.1 ∧
      (r.1.needsSyncPrepare = false → r.1.routes.map Prod.fst = st.routes.map Prod.fst ++ es) := by
  induction es generalizing st with
  | nil => exact ⟨rfl, h, fun _ => by simp [prefetchLoop]⟩
  | cons e es ih =>
    have hes' := fun x hx => hes x (List.mem_cons_of_mem e hx)
    have hen := hes e List.mem_cons_self
    simp only [List.length_cons] at hlen
    -- the rest of the loop, once `e` has its route
    have next : ∀ st' : Routing ρ, RouteInv cfg sidecar st' →
        (cfg.identity = true → ∀ e < cfg.nExpert, st'.bank.Backed cfg e) →
        (∃ s, st'.routes = st.routes ++ [(e, s)]) →
        let r := prefetchLoop cfg sidecar io st' es
        r.2 = true ∧ RouteInv cfg sidecar r.1 ∧
          (r.1.needsSyncPrepare = false →
            r.1.routes.map Prod.fst = st.routes.map Prod.fst ++ e :: es) := by
      rintro st' h' hb' ⟨s, hr⟩
      obtain ⟨hok, hinv, hrt⟩ := ih hes' st' h' hb' (by rw [hr]; simp; omega)
      refine ⟨hok, hinv, fun hn => ?_⟩
      rw [hrt hn, hr]
      simp
    unfold prefetchLoop
    cases hso : st.slotOf e with
    | some s =>
      have hr := Routing.slotOf_eq_some hso
      exact next (st.assign e s) (h.repeat hr) hb ⟨s, rfl⟩
    | none =>
      have hne := Routing.slotOf_eq_none hso
      dsimp only
      have hsound := h.sound.loads.reserve e st.protectedExperts st.reservedSlots
      rcases reserveDecodeSlot_cases cfg st.bank e st.protectedExperts st.reservedSlots with hr |
        ⟨-, hi, hbe, hre, hr⟩ | ⟨-, hid, s, hl, hre, hr⟩ | ⟨-, hid, s, hpick, hr⟩
      · -- a reservation cannot fail: its slot is backed and free, or some slot can be aged out
        exfalso
        by_cases hi : cfg.identity = true
        · have hbe := hb hi e hen
          have hfree : st.reservedSlots e = false := by
            by_contra hn
            obtain ⟨r, hrm, hrs⟩ := (h.reserved e).mp (by simpa using hn)
            exact hne r hrm ((h.identity hi r hrm).symm.trans hrs)
          simp only [Config.identity, Bool.or_eq_true] at hi
          unfold reserveDecodeSlot at hr
          rw [if_neg (not_not_intro hen)] at hr
          cases hd : cfg.directMmapBank with
          | true => simp [hd, hbe.1, hfree] at hr
          | false =>
            rw [hd] at hi
            have hp : cfg.perExpertBuffers = true := by simpa using hi
            have hx : st.bank.expertBank e = true := by simpa [hd] using hbe.2
            simp [hd, hp, hbe.1, hx, hfree] at hr
        · have hi' : cfg.identity = false := by simpa using hi
          simp only [Config.identity, Bool.or_eq_false_iff] at hi'
          obtain ⟨i, hlt, hfree⟩ := h.exists_free (by omega)
          obtain ⟨s, hs⟩ : ∃ s, pickSlot cfg st.bank.l1 st.protectedExperts st.reservedSlots =
              some s := pickSlot_isSome hlt hfree (h.aged i hlt hfree)
          unfold reserveDecodeSlot at hr
          rw [if_neg (not_not_intro hen), if_neg (by simp [hi'.1]), if_neg (by simp [hi'.2]),
            hs] at hr
          cases hf : (st.bank.l1.lookup cfg.slotBank e).filter
              (fun s => !st.reservedSlots s) <;> rw [hf] at hr <;> simp at hr
      · -- the identity layouts
        rw [hr] at hsound ⊢
        refine next _ (h.extend (n := []) (e := e) (s := e) hne hre hbe.1 (fun _ => rfl) rfl
          rfl (List.append_nil _).symm ⟨by simp, by simp⟩ (Or.inr ?_) ?_ ?_
          ((h.sound.setBank hsound).assign e e)) (fun hi' x hx => hb hi' x hx) ⟨e, rfl⟩
        · refine ⟨Level.record_holds_self .., ?_⟩
          exact h.sound.loads.bank.identity hi e hbe
        · rintro e' s' he' hs' ⟨hh, hby⟩
          refine ⟨⟨?_, ?_⟩, hby⟩
          · show Function.update st.bank.l1.slotToExpert e (some e) s' = some e'
            rw [Function.update_of_ne hs']
            exact hh.1
          · show Function.update st.bank.l1.expertToSlot e (some e) e' = some s'
            rw [Function.update_of_ne he']
            exact hh.2
        · intro t ht
          show Function.update st.bank.l1.slotAge e _ t = _
          rw [Function.update_of_ne ht]
      · -- a hit
        rw [hr] at hsound ⊢
        obtain ⟨hlt, hh⟩ := (Level.lookup_eq_some).mp hl
        have hnl : ¬ Loading st.loads s := by
          rintro ⟨l, hlm, -, rfl⟩
          rw [h.sound.reserved l hlm] at hre
          cases hre
        refine next _ (h.extend (n := []) (e := e) (s := s) hne hre hlt
          (fun hi => by rw [hid] at hi; cases hi) rfl rfl (List.append_nil _).symm
          ⟨by simp, by simp⟩ (Or.inr ⟨hh, h.sound.loads.bank.l1 s hnl e hh.1⟩)
          (fun _ _ _ _ hx => hx) ?_ ((h.sound.setBank hsound).assign e s))
          (fun hi' x hx => hb hi' x hx) ⟨s, rfl⟩
        intro t ht
        show Function.update st.bank.l1.slotAge s _ t = _
        rw [Function.update_of_ne ht]
      · -- a miss
        rw [hr] at hsound ⊢
        have hpk := pickSlot_eq_some hpick
        dsimp only
        rw [if_neg (by simp)]
        split
        · refine ⟨rfl, ?_, by simp⟩
          exact ⟨⟨h.sound.loads, h.sound.reserved⟩, h.reserved, h.functional, h.inRange,
            h.settled, h.loads, h.length, h.aged, h.identity⟩
        · rw [if_neg (by have := h.length; omega)]
          have hne' : ∀ l ∈ st.loads, l.slot ≠ s := by
            rintro l hlm rfl
            rw [h.sound.reserved l hlm] at hpk
            cases hpk.2
          have hstart := startPrefetchLoad_sound (e := e)
            (r := ⟨s, st.bank.l1.slotToExpert s, true⟩) io (h.sound.assign e s) hid hen hpk.1
            hne' (by simp [Routing.assign]) rfl
          obtain ⟨st₂, l, hst, hrt, hrv, hns, hld, hle, hls, hc, hag, hkp⟩ :=
            startPrefetchLoad_tables cfg sidecar hio (st.assign e s) e
              ⟨s, st.bank.l1.slotToExpert s, true⟩
          rw [hst] at hstart
          have hinv : RouteInv cfg sidecar st₂ :=
            h.extend (n := [l]) (e := e) (s := s) hne hpk.2 hpk.1
              (fun hi => by rw [hid] at hi; cases hi) hrt hrv hld
              ⟨by simp, by simp [hle, hls, hc]⟩ (Or.inl (by simp))
              (fun e' s' _ hs' hx => hkp e' s' hs' hx) (fun t _ => by rw [hag]; rfl) hstart
          -- `st` with its bank put back is `st`
          have hst' : startPrefetchLoad cfg sidecar io
              (({ st with bank := st.bank } : Routing ρ).assign e s) e
              ⟨s, st.bank.l1.slotToExpert s, true⟩ = (st₂, true) := hst
          rw [hst', if_neg (by simp)]
          dsimp only
          split
          · refine ⟨rfl, ?_, by simp⟩
            exact ⟨⟨hinv.sound.loads, hinv.sound.reserved⟩, hinv.reserved, hinv.functional,
              hinv.inRange, hinv.settled, hinv.loads, hinv.length, hinv.aged, hinv.identity⟩
          · refine next st₂ hinv (fun hi => ?_) ⟨s, hrt⟩
            rw [hid] at hi
            cases hi

/-! ### Finishing a prefetch -/

/-- All uploads of a joined load succeed. -/
structure LoadIo.Succeeds (io : LoadIo ρ) : Prop where
  markModified : io.markModified = true
  upload : io.upload = .ok

/-- **A join that succeeds** puts the record in place and commits it. -/
theorem joinLoad_stored {io : LoadIo ρ} (hio : io.Succeeds) (seq : Bool) {l : Load ρ}
    (hl : l.InFlight cfg sidecar seq b) (hc : l.job.complete = true) :
    ∃ b' age, joinLoad cfg seq io b l = (b', .stored) ∧
      b'.l1 = (b.l1.setBytes l.slot (sidecar l.expert)).commit cfg.nExpert l.expert l.slot
        l.evicted age := by
  have hdata := hl.complete hc
  unfold joinLoad
  rw [if_neg (by simp [hc])]
  cases hd : l.job.direct with
  | true =>
    have hset : b.l1.setBytes l.slot (sidecar l.expert) = b.l1 := by
      rw [← hdata, ← hl.direct hd]
      unfold Level.setBytes
      rw [Function.update_eq_self]
    rw [if_pos rfl, if_pos hio.markModified]
    exact ⟨_, _, rfl, by simp only [Bank.commitDecodeSlot, (gpuL2StoreL1Slot_frame ..).1, hset]; rfl⟩
  | false =>
    unfold uploadDecodeSlot
    rw [if_neg (by simp), if_pos ⟨hl.expert_lt, hl.slot_lt⟩, hio.upload, hdata]
    exact ⟨_, _, rfl, by simp only [Bank.commitDecodeSlot, (gpuL2StoreL1Slot_frame ..).1]; rfl⟩

/-- The invariant of the finish loop, with the loads that are left. -/
structure FinishInv (cfg : Config) (sidecar : Nat → ρ) (seq : Bool) (routes : List (Nat × Nat))
    (b : Bank ρ) (loads : List (Load ρ)) : Prop where
  settled : ∀ r ∈ routes, b.Has sidecar r.1 r.2 ∨ ∃ l ∈ loads, l.expert = r.1 ∧ l.slot = r.2
  inFlight : ∀ l ∈ loads, (l.expert, l.slot) ∈ routes ∧ l.job.complete = true ∧
    l.InFlight cfg sidecar seq b
  distinct : loads.Pairwise (fun l l' => l.slot ≠ l'.slot)

/-- **The finish loop**: every load is stored, and every routed expert ends up in its slot. -/
theorem finishLoads_holds {io : Nat → LoadIo ρ} (hio : ∀ i, (io i).Succeeds) {seq : Bool}
    {routes : List (Nat × Nat)}
    (hf : ∀ r ∈ routes, ∀ r' ∈ routes, r.1 = r'.1 ↔ r.2 = r'.2) (loads : List (Load ρ)) (i : Nat)
    (st : Finish ρ) (hok : st.ok = true) (h : FinishInv cfg sidecar seq routes st.bank loads) :
    let r := finishLoads cfg seq io i st loads
    r.ok = true ∧ r.needsSyncPrepare = st.needsSyncPrepare ∧
      ∀ x ∈ routes, r.bank.Has sidecar x.1 x.2 := by
  induction loads generalizing i st with
  | nil =>
    refine ⟨hok, rfl, fun x hx => ?_⟩
    rcases h.settled x hx with hh | ⟨l, hl, -⟩
    · exact hh
    · cases hl
  | cons l ls ih =>
    obtain ⟨hlr, hc, hfl⟩ := h.inFlight l List.mem_cons_self
    obtain ⟨b', age, hjoin, hl1⟩ := joinLoad_stored (hio i) seq hfl hc
    obtain ⟨hd, hd'⟩ := List.pairwise_cons.mp h.distinct
    have hfin : finishLoad cfg seq (io i) st l = { st with bank := b' } := by
      unfold finishLoad
      rw [if_pos hok, hjoin]
    have hself : b'.Has sidecar l.expert l.slot := by
      unfold Bank.Has
      rw [hl1]
      exact ⟨Level.commit_holds_self .., by simp⟩
    have hkeep : ∀ e' s', e' ≠ l.expert → s' ≠ l.slot → st.bank.Has sidecar e' s' →
        b'.Has sidecar e' s' := by
      rintro e' s' he' hs' ⟨hh, hby⟩
      unfold Bank.Has
      rw [hl1]
      refine ⟨Level.commit_holds_of_ne _ _ hh he' hs', ?_⟩
      simpa [Function.update_of_ne hs'] using hby
    unfold finishLoads
    rw [hfin]
    refine ih (i + 1) { st with bank := b' } hok ⟨?_, ?_, hd'⟩
    · intro r hr
      by_cases heq : r.1 = l.expert
      · have hs := (hf r hr _ hlr).mp heq
        exact Or.inl (by rw [heq, hs]; exact hself)
      · have hs : r.2 ≠ l.slot := fun hs => heq ((hf r hr _ hlr).mpr hs)
        rcases h.settled r hr with hh | ⟨l', hl', hle, hls⟩
        · exact Or.inl (hkeep _ _ heq hs hh)
        · rcases List.mem_cons.mp hl' with rfl | hl'
          · exact absurd hle.symm heq
          · exact Or.inr ⟨l', hl', hle, hls⟩
    · intro l' hl'
      obtain ⟨hr', hc', hfl'⟩ := h.inFlight l' (List.mem_cons_of_mem _ hl')
      have hs : l'.slot ≠ l.slot := (hd l' hl').symm
      refine ⟨hr', hc', { hfl' with evicted := ?_, direct := ?_ }⟩
      · rw [hl1]
        simpa [Function.update_of_ne hs] using hfl'.evicted
      · rw [hl1]
        simpa [Function.update_of_ne hs] using hfl'.direct

/-- **The prefetch path.** A prepared prefetch always exists, finishing it succeeds, and unless it
    asks for a synchronous preparation every position has its slot, with the record. -/
theorem decodePrefetch_assigns {io : PrefetchIo ρ} (hio : io.Succeeds) {lio : Nat → LoadIo ρ}
    (hlio : ∀ i, (lio i).Succeeds) (hcoh : b.Coherent cfg sidecar)
    (hbank : cfg.expertUsed ≤ cfg.slotBank) (hlen : ids.length = cfg.expertUsed)
    (hids : ∀ e ∈ ids, e < cfg.nExpert)
    (hage : ∀ s < cfg.slotBank, b.l1.slotAge s ≠ UINT64_MAX) :
    ∃ b₁ pf, prepareDecodePrefetchIds cfg sidecar io b ids = (b₁, some pf) ∧
      (decodePrefetchFinish cfg lio b₁ pf).ok = true ∧
      ((decodePrefetchFinish cfg lio b₁ pf).needsSyncPrepare = false →
        List.Forall₂ (fun e s => s < cfg.slotBank ∧
          (decodePrefetchFinish cfg lio b₁ pf).bank.Has sidecar e s) ids pf.slotIds) := by
  have hinit : RouteInv cfg sidecar (Routing.init cfg b ids) :=
    ⟨⟨LoadsSound.nil hcoh.sound, by simp [Routing.init]⟩, by simp [Routing.init],
      by simp [Routing.init], by simp [Routing.init], by simp [Routing.init],
      by simp [Routing.init], by simp [Routing.init], fun s hs _ => hage s hs,
      by simp [Routing.init]⟩
  obtain ⟨hok, hinv, hroutes⟩ := prefetchLoop_routeInv hio hbank ids hids
    (Routing.init cfg b ids) hinit hcoh.backed (by simp [Routing.init, hlen])
  set out := prefetchLoop cfg sidecar io (Routing.init cfg b ids) ids with hout
  have hprep : prepareDecodePrefetchIds cfg sidecar io b ids =
      (out.1.bank, some ⟨out.1.needsSyncPrepare, cfg.prefetchScratchOnly,
        out.1.routes.map Prod.snd, out.1.loads⟩) := by
    have hr : prefetchRoutes cfg sidecar io b ids = (out.1, true) := by
      unfold prefetchRoutes
      simp [← hout, hok, hio.selectedWrite]
    unfold prepareDecodePrefetchIds
    rw [hr]
  refine ⟨_, _, hprep, ?_⟩
  obtain ⟨hfok, hfn, hhas⟩ := finishLoads_holds hlio hinv.functional out.1.loads 0
    ⟨out.1.bank, true, out.1.needsSyncPrepare⟩ rfl
    ⟨hinv.settled, fun l hl => ⟨(hinv.loads l hl).1, (hinv.loads l hl).2,
      hinv.sound.loads.inFlight l hl⟩, hinv.sound.loads.distinct⟩
  refine ⟨hfok, fun hn => ?_⟩
  have hfst : ids = out.1.routes.map Prod.fst := by
    have := hroutes (hfn.symm.trans hn)
    simpa [Routing.init] using this.symm
  rw [hfst, List.forall₂_map_left_iff, List.forall₂_map_right_iff, List.forall₂_same]
  exact fun r hr => ⟨hinv.inRange r hr, hhas r hr⟩

/-! ### The whole step -/

/-- All calls of a synchronous preparation succeed. -/
structure PrepareIo.Succeeds (io : PrepareIo ρ) : Prop where
  ready : io.ready = true
  load : ∀ k, (io.load k).Succeeds
  selectedWrite : io.selectedWrite = true
  restart : io.restart = true

/-- **The synchronous path.** -/
theorem prepareDecode_assigns {io : PrepareIo ρ} (hio : io.Succeeds)
    (hcoh : b.Coherent cfg sidecar) (hbank : cfg.expertUsed ≤ cfg.slotBank)
    (hlen : ids.length = cfg.expertUsed) (hids : ∀ e ∈ ids, e < cfg.nExpert)
    (hage : ∀ s < cfg.slotBank, b.l1.slotAge s ≠ UINT64_MAX) (hsix : cfg.sixSlots = false) :
    ∃ b' slots, prepareDecode cfg sidecar io b ids = (b', some slots) ∧
      Assigned cfg b' ids slots ∧
      (cfg.gpuL2SlotBank = 0 ∨ cfg.l2SlotBank = 0 ∧ (∀ k, (io.load k).gpuL2Store = .ok) →
        b'.Sound cfg sidecar fun _ => False) := by
  unfold prepareDecode
  rw [if_neg (by simp [hio.ready]), hio.selectedWrite, hio.restart]
  cases hd : cfg.directMmapBank with
  | true =>
    have hi : cfg.identity = true := by simp [Config.identity, hd]
    have hall : ∀ e ∈ ids, e < cfg.nExpert ∧ e < cfg.slotBank :=
      fun e he => ⟨hids e he, (hcoh.backed hi e (hids e he)).1⟩
    refine ⟨b, ids, by simp [if_pos hall], ?_, fun _ => hcoh.sound⟩
    exact List.forall₂_same.mpr fun e he =>
      ⟨(hall e he).2, hcoh.mapped hd e (hids e he)⟩
  | false =>
    rw [hsix]
    simp only [Bool.false_eq_true, if_false]
    have hloop : ∃ b' slots, installLoop cfg sidecar io.load 0 b (protectRoutedExperts cfg ids)
        ids = (b', some slots) ∧ Assigned cfg b' ids slots := by
      cases hi : cfg.identity with
      | true =>
        obtain ⟨b', hl, ha, -⟩ := installLoop_assigns_identity sidecar io.load
          hi ids hids 0 b (protectRoutedExperts cfg ids) (hcoh.backed hi) [] (by simp)
        exact ⟨b', ids, hl, ha⟩
      | false =>
        have hinv : StepInv cfg ids b (protectRoutedExperts cfg ids) [] := by
          refine ⟨hcoh.inverse, by simp, by simp, ?_, fun s hs ha => absurd ha (hage s hs)⟩
          intro x hx
          simp only [protectRoutedExperts, Bool.and_eq_true, decide_eq_true_eq] at hx
          exact hx.2
        obtain ⟨b', slots, hl, ha, -⟩ := installLoop_assigns sidecar hio.load hi
          (by omega) ids (fun e he => ⟨he, hids e he⟩) 0 b _ [] hinv
        exact ⟨b', slots, hl, ha⟩
    obtain ⟨b', slots, hl, ha⟩ := hloop
    refine ⟨b', slots, by rw [hl]; rfl, ha, fun hl2 => ?_⟩
    have hs := installLoop_sound hio.load hl2 ids 0 b (protectRoutedExperts cfg ids) hcoh.sound
    rwa [hl] at hs

/-- **The six-slot baseline.** -/
theorem prepareDecode_assigns_sixSlots {io : PrepareIo ρ} (hio : io.Succeeds)
    (hcoh : b.Coherent cfg sidecar) (hids : ∀ e ∈ ids, e < cfg.nExpert)
    (hsix : cfg.sixSlots = true) :
    ∃ b', prepareDecode cfg sidecar io b ids = (b', some (List.range' 0 ids.length)) ∧
      (∀ k (hk : k < ids.length), b'.l1.slotToExpert k = some ids[k]) ∧
      (ids.Nodup → List.Forall₂ b'.l1.Holds ids (List.range' 0 ids.length)) ∧
      b'.Sound cfg sidecar fun _ => False := by
  have hoff := hsix
  simp only [Config.sixSlots, Bool.and_eq_true, Bool.not_eq_true'] at hoff
  have hid : cfg.identity = false := by simp [Config.identity, hoff.1.1.2, hoff.1.2]
  obtain ⟨b', hl, -, hat, -, hnd⟩ :=
    sixSlotLoop_assigns sidecar hio.load ids hids 0 b
  have hs := sixSlotLoop_sound hio.load hid ids 0 b hcoh.sound
  rw [hl] at hs
  refine ⟨b', ?_, fun k hk => ?_, hnd, hs⟩
  · unfold prepareDecode
    rw [if_neg (by simp [hio.ready]), hio.selectedWrite, hio.restart, hoff.1.1.2, hsix]
    simp only [Bool.false_eq_true, if_false, if_true]
    rw [hl]
    rfl
  · have := hat k hk
    rwa [Nat.zero_add] at this

/-- What a decode step needs of its slots: position `k` has a slot of the bank that holds its
    expert, and two positions share a slot exactly when they name the same expert. -/
structure Serves (cfg : Config) (b : Bank ρ) (ids slots : List Nat) : Prop where
  length : slots.length = ids.length
  holds : ∀ k (hk : k < ids.length) (hk' : k < slots.length),
    slots[k] < cfg.slotBank ∧ b.l1.Holds ids[k] slots[k]
  shared : ∀ i j (hi : i < ids.length) (hj : j < ids.length) (hi' : i < slots.length)
    (hj' : j < slots.length), slots[i] = slots[j] ↔ ids[i] = ids[j]

/-- Slots that hold the experts serve the step. -/
theorem Assigned.serves {slots : List Nat} (h : Assigned cfg b ids slots) :
    Serves cfg b ids slots := by
  obtain ⟨hlen, hget⟩ := List.forall₂_iff_get.mp h
  have hholds : ∀ k (hk : k < ids.length) (hk' : k < slots.length),
      slots[k] < cfg.slotBank ∧ b.l1.Holds ids[k] slots[k] := fun k hk hk' => hget k hk hk'
  refine ⟨hlen.symm, hholds, fun i j hi hj hi' hj' => ?_⟩
  have hhi := (hholds i hi hi').2
  have hhj := (hholds j hj hj').2
  constructor
  · intro heq
    exact hhi.expert_unique (heq ▸ hhj)
  · intro heq
    exact hhi.slot_unique (heq ▸ hhj)

/-- **Slot assignment of a decode step.** On a coherent bank with at least as many slots as active
    experts, and no slot of age `UINT64_MAX`, when all reads and uploads succeed:

    * the synchronous path serves the routed experts, with their records when at most one L2
      copies records around;
    * the six-slot baseline puts position `k` into slot `k`, with its record, and serves experts
      that are pairwise different;
    * the prefetch path never fails, and unless it asks for a synchronous preparation it serves
      the routed experts, with their records. -/
theorem decode_step_assigns (hcoh : b.Coherent cfg sidecar) (hbank : cfg.expertUsed ≤ cfg.slotBank)
    (hlen : ids.length = cfg.expertUsed) (hids : ∀ e ∈ ids, e < cfg.nExpert)
    (hage : ∀ s < cfg.slotBank, b.l1.slotAge s ≠ UINT64_MAX) :
    (∀ io : PrepareIo ρ, io.Succeeds → cfg.sixSlots = false →
      ∃ b' slots, prepareDecode cfg sidecar io b ids = (b', some slots) ∧
        Serves cfg b' ids slots ∧
        (cfg.gpuL2SlotBank = 0 ∨ cfg.l2SlotBank = 0 ∧ (∀ k, (io.load k).gpuL2Store = .ok) →
          ∀ k (hk : k < ids.length) (hk' : k < slots.length),
            b'.l1.bytes slots[k] = sidecar ids[k])) ∧
    (∀ io : PrepareIo ρ, io.Succeeds → cfg.sixSlots = true →
      ∃ b', prepareDecode cfg sidecar io b ids = (b', some (List.range ids.length)) ∧
        (∀ k (hk : k < ids.length), b'.l1.slotToExpert k = some ids[k] ∧
          b'.l1.bytes k = sidecar ids[k]) ∧
        (ids.Nodup → Serves cfg b' ids (List.range ids.length))) ∧
    (∀ (io : PrefetchIo ρ) (lio : Nat → LoadIo ρ), io.Succeeds → (∀ i, (lio i).Succeeds) →
      ∃ b₁ pf, prepareDecodePrefetchIds cfg sidecar io b ids = (b₁, some pf) ∧
        (decodePrefetchFinish cfg lio b₁ pf).ok = true ∧
        ((decodePrefetchFinish cfg lio b₁ pf).needsSyncPrepare = false →
          Serves cfg (decodePrefetchFinish cfg lio b₁ pf).bank ids pf.slotIds ∧
          ∀ k (hk : k < ids.length) (hk' : k < pf.slotIds.length),
            (decodePrefetchFinish cfg lio b₁ pf).bank.l1.bytes pf.slotIds[k] =
              sidecar ids[k])) := by
  refine ⟨fun io hio hsix => ?_, fun io hio hsix => ?_, fun io lio hio hlio => ?_⟩
  · obtain ⟨b', slots, hp, ha, hs⟩ := prepareDecode_assigns hio hcoh hbank hlen hids hage hsix
    have hserves := ha.serves
    refine ⟨b', slots, hp, hserves, fun hl2 k hk hk' => ?_⟩
    exact (hs hl2).l1 _ (fun hn => hn) _ (hserves.holds k hk hk').2.1
  · obtain ⟨b', hp, hat, hnd, hs⟩ := prepareDecode_assigns_sixSlots hio hcoh hids hsix
    rw [← List.range_eq_range'] at hp hnd
    refine ⟨b', hp, fun k hk => ⟨hat k hk, hs.l1 k (fun hn => hn) _ (hat k hk)⟩, fun hn => ?_⟩
    have hmem : ∀ e s, (e, s) ∈ ids.zip (List.range ids.length) → s < cfg.slotBank := by
      intro e s hx
      have := List.mem_range.mp (List.of_mem_zip hx).2
      omega
    exact Assigned.serves (List.forall₂_iff_zip.mpr ⟨(hnd hn).length_eq, fun {e s} hx =>
      ⟨hmem e s hx, (List.forall₂_iff_zip.mp (hnd hn)).2 hx⟩⟩)
  · obtain ⟨b₁, pf, hp, hok, hhas⟩ :=
      decodePrefetch_assigns hio hlio hcoh hbank hlen hids hage
    refine ⟨b₁, pf, hp, hok, fun hn => ⟨?_, ?_⟩⟩
    · exact Assigned.serves ((hhas hn).imp fun _ _ hx => ⟨hx.1, hx.2.1⟩)
    · intro k hk hk'
      exact ((List.forall₂_iff_get.mp (hhas hn)).2 k hk hk').2.2

/-! ### Concrete steps -/

/-- Three experts and as many slots as a step uses, no L2. -/
def stepConfig (slots : Nat) (six : Bool) : Config where
  nLayer := 1
  nExpert := 3
  expertUsed := slots
  slotBank := slots
  l2SlotBank := 0
  gpuL2SlotBank := 0
  mixedSlotBank := true
  directMmapBank := false
  perExpertBuffers := false
  directSlotPread := true
  prefetchDirectSlotPread := true
  prefetchScratchOnly := false
  prefetchMaxLoads := slots
  preprotectTopk := true
  sixSlotBaseline := six

/-- A preparation in which everything succeeds. -/
def prepareOk : PrepareIo Nat where
  ready := true
  load _ := ⟨.ok, true, .ok, .ok, true, .ok, .ok, true⟩
  selectedWrite := true
  restart := true

theorem prepareOk_succeeds : prepareOk.Succeeds :=
  ⟨rfl, fun _ => ⟨Or.inl rfl, rfl, rfl, rfl⟩, rfl, rfl⟩

/-- One layer whose slot 0 holds expert 0, at the given age, and whose other slots are empty. -/
def residentBank (age : UInt64) : Bank Nat where
  l1 := ⟨fun s => if s = 0 then some 0 else none, fun e => if e = 0 then some 0 else none,
    fun s => if s = 0 then age else 0, fun _ => 0⟩
  l2 := ⟨fun _ => none, fun _ => none, fun _ => 0, fun _ => none⟩
  gpuL2 := ⟨fun _ => none, fun _ => none, fun _ => 0, fun _ => 0⟩
  expertBank _ := false
  flashAge := 0

theorem residentBank_coherent (slots : Nat) (six : Bool) (age : UInt64) :
    (residentBank age).Coherent (stepConfig slots six) id := by
  have hone : ∀ s e, (residentBank age).l1.slotToExpert s = some e → s = 0 ∧ e = 0 := by
    intro s e h
    simp only [residentBank] at h
    split at h
    · rename_i hs
      exact ⟨hs, (Option.some.inj h).symm⟩
    · cases h
  refine ⟨⟨?_, fun _ _ => keeps_none _ _, fun _ _ => keeps_none _ _, ?_⟩, ?_, ?_, ?_⟩
  · intro s _ e h
    rw [(hone s e h).2]
    rfl
  · rintro ⟨⟩
  · intro s _ e h
    obtain ⟨rfl, rfl⟩ := hone s e h
    exact ⟨Nat.zero_lt_succ 2, rfl⟩
  · rintro ⟨⟩
  · rintro ⟨⟩

/-- Experts 2 and 0 on a bank that holds expert 0. -/
theorem decode_step_assigns_resident :
    ∃ b' slots, prepareDecode (stepConfig 2 false) id prepareOk (residentBank 1) [2, 0] =
      (b', some slots) ∧ Serves (stepConfig 2 false) b' [2, 0] slots := by
  obtain ⟨b', slots, hp, hs, -⟩ := (decode_step_assigns (residentBank_coherent 2 false 1)
    (by decide) (show [2, 0].length = 2 from rfl) (by decide) (by decide)).1 prepareOk
    prepareOk_succeeds rfl
  exact ⟨b', slots, hp, hs⟩

/-- **The two exceptions.** The six-slot baseline gives the two positions of a repeated expert two
    slots; and when the only slot has the age `UINT64_MAX`, picking a slot fails.  Both banks are
    coherent and every call succeeds. -/
theorem decode_step_exceptions :
    ((residentBank 1).Coherent (stepConfig 2 true) id ∧
      (prepareDecode (stepConfig 2 true) id prepareOk (residentBank 1) [1, 1]).2 = some [0, 1]) ∧
    ((residentBank UINT64_MAX).Coherent (stepConfig 1 false) id ∧
      (prepareDecode (stepConfig 1 false) id prepareOk (residentBank UINT64_MAX) [1]).2 = none) :=
  ⟨⟨residentBank_coherent 2 true 1, by decide⟩,
    ⟨residentBank_coherent 1 false UINT64_MAX, by decide⟩⟩

end DS4.FlashMoe
