import Mathlib.Data.List.AList
import DS4.Lib.Simulation
import DS4.Rax.Remove

namespace DS4.Rax

/-!
# Radix tree — runs

A tree stands for a finite map; whatever calls are made, it does what the map does.

* `Call`, `call` — a call and what it does with a tree; `mapCall` — what it does with a finite map.
* `Refines` — the tree has the values of the map.
* `sound_call`, `simulates_call` — **every call** does the same with both; `run_eq` — so does every run.
* `raxFree_spec`, `eq_raxNew`, `run_free` — the end of a tree, and an empty one.
-/

open DS4.Lib

variable {V : Type} {t : Tree V} {m : AList fun _ : Bytes => V} {s : Bytes} {v : V}

/-- A call of the interface. -/
inductive Call (V : Type) where
  | insert (s : Bytes) (v : V)
  | tryInsert (s : Bytes) (v : V)
  | remove (s : Bytes)
  | find (s : Bytes)

/-- The key of a call. -/
def Call.key : Call V → Bytes
  | .insert s _    => s
  | .tryInsert s _ => s
  | .remove s      => s
  | .find s        => s

/-- A call with a tree, and the value it gives back: the one that the key had. -/
def call (t : Tree V) : Call V → Option (Tree V × Option V)
  | .insert s v    => some ((raxInsert t s v).tree, (raxInsert t s v).old)
  | .tryInsert s v => some ((raxTryInsert t s v).tree, (raxTryInsert t s v).old)
  | .remove s      => raxRemove t s
  | .find s        => some (t, raxFind t s)

/-- The same with a finite map. -/
def mapCall (m : AList fun _ : Bytes => V) (c : Call V) : (AList fun _ : Bytes => V) × Option V :=
  (match c with
    | .insert s v    => m.insert s v
    | .tryInsert s v => if s ∈ m then m else m.insert s v
    | .remove s      => m.erase s
    | .find _        => m,
    m.lookup c.key)

/-- The tree has the values of the map. -/
structure Refines (t : Tree V) (m : AList fun _ : Bytes => V) : Prop where
  ok : t.Ok
  get : t.get = fun k => m.lookup k

/-- The keys of the map fit in a node. -/
def Fitting (m : AList fun _ : Bytes => V) : Prop := ∀ k ∈ m, k.length ≤ NODE_MAX_SIZE

theorem lookup_insert_eq (m : AList fun _ : Bytes => V) (s : Bytes) (v : V) :
    (fun k => (m.insert s v).lookup k) = Function.update (fun k => m.lookup k) s (some v) := by
  funext k
  by_cases hk : k = s
  · rw [hk, AList.lookup_insert, Function.update_self]
  · rw [AList.lookup_insert_ne hk, Function.update_of_ne hk]

theorem lookup_erase_eq (m : AList fun _ : Bytes => V) (s : Bytes) :
    (fun k => (m.erase s).lookup k) = Function.update (fun k => m.lookup k) s none := by
  funext k
  by_cases hk : k = s
  · rw [hk, AList.lookup_erase, Function.update_self]
  · rw [AList.lookup_erase_ne hk, Function.update_of_ne hk]

/-- The counter of a tree is the size of the map. -/
theorem Refines.numele_eq (h : Refines t m) : t.numele = m.entries.length := by
  have hkeys : keysOf t.get = ↑m.keys.toFinset := by
    ext k
    rw [h.get, mem_keysOf, AList.lookup_isSome, Finset.mem_coe, List.mem_toFinset, AList.mem_keys]
  rw [h.ok.keys, hkeys, Set.ncard_coe_finset, List.toFinset_card_of_nodup m.keys_nodup]
  exact List.length_map _

theorem refines_raxNew : Refines (raxNew : Tree V) ∅ := by
  obtain ⟨hok, hget⟩ := ok_raxNew (V := V)
  refine ⟨hok, ?_⟩
  rw [hget]
  funext k
  rw [AList.lookup_empty, noText_apply]

theorem Refines.get_eq_none (h : Refines t m) (k : Bytes) : t.get k = none ↔ k ∉ m := by
  rw [h.get, AList.lookup_eq_none]

/-- **A call** that stays within its nodes does with a tree what it does with the map. -/
theorem sound_call : Sound (Refines (V := V)) call mapCall := by
  intro t m c t' o h hcall
  cases c with
  | insert s v =>
    obtain ⟨hold, -, hok, hget⟩ := genericInsert_spec h.ok s v true
    obtain ⟨rfl, rfl⟩ := Prod.mk.inj (Option.some.inj hcall)
    rw [if_pos (Or.inl rfl)] at hget
    refine ⟨hold.trans (congrFun h.get s), hok, hget.trans ?_⟩
    rw [h.get, ← lookup_insert_eq]
    rfl
  | tryInsert s v =>
    obtain ⟨hold, -, hok, hget⟩ := genericInsert_spec h.ok s v false
    obtain ⟨rfl, rfl⟩ := Prod.mk.inj (Option.some.inj hcall)
    refine ⟨hold.trans (congrFun h.get s), hok, hget.trans ?_⟩
    by_cases hs : s ∈ m
    · have hsome : ¬ (false = true ∨ t.get s = none) := by
        rw [h.get_eq_none]
        simp [hs]
      rw [if_neg hsome, h.get]
      simp only [mapCall, if_pos hs]
    · rw [if_pos (Or.inr ((h.get_eq_none s).mpr hs)), h.get, ← lookup_insert_eq]
      simp only [mapCall, if_neg hs]
  | remove s =>
    obtain ⟨hold, hok, hget, -⟩ := (raxRemove_spec h.ok s).tree t' o hcall
    refine ⟨hold.trans (congrFun h.get s), hok, hget.trans ?_⟩
    rw [h.get, ← lookup_erase_eq]
    rfl
  | find s =>
    obtain ⟨rfl, rfl⟩ := Prod.mk.inj (Option.some.inj hcall)
    exact ⟨(raxFind_eq h.ok s).trans (congrFun h.get s), h⟩

/-- A call stays within its nodes if the keys fit in a node. -/
theorem Refines.call_ne_none (h : Refines t m) (hm : Fitting m) (c : Call V) : call t c ≠ none := by
  cases c with
  | insert s v => exact nofun
  | tryInsert s v => exact nofun
  | find s => exact nofun
  | remove s =>
    refine (raxRemove_spec h.ok s).short fun k hk => ?_
    rw [keysOf_erase] at hk
    refine hm k ?_
    by_contra hnot
    have hsome := mem_keysOf.mp hk.1
    rw [(h.get_eq_none k).mpr hnot] at hsome
    exact absurd hsome (by simp)

theorem fitting_mapCall (hm : Fitting m) {c : Call V} (hc : c.key.length ≤ NODE_MAX_SIZE) :
    Fitting (mapCall m c).1 := by
  intro k hk
  cases c with
  | insert s v =>
    rcases (AList.mem_insert m).mp hk with rfl | hk
    · exact hc
    · exact hm k hk
  | tryInsert s v =>
    by_cases hs : s ∈ m
    · simp only [mapCall, if_pos hs] at hk
      exact hm k hk
    · simp only [mapCall, if_neg hs] at hk
      rcases (AList.mem_insert m).mp hk with rfl | hk
      · exact hc
      · exact hm k hk
  | remove s => exact hm k (AList.mem_erase.mp hk).2
  | find s => exact hm k hk

/-- **Every call** does with a tree what it does with the map, if the keys fit in a node. -/
theorem simulates_call :
    Simulates (fun (t : Tree V) m => Refines t m ∧ Fitting m) call mapCall
      fun _ c => c.key.length ≤ NODE_MAX_SIZE := by
  intro t m c ⟨h, hm⟩ hc
  obtain ⟨⟨t', o⟩, hcall⟩ := Option.ne_none_iff_exists'.mp (h.call_ne_none hm c)
  obtain ⟨rfl, ht'⟩ := sound_call t m c t' o h hcall
  exact ⟨t', hcall, ht', fitting_mapCall hm hc⟩

/-- A run with keys that fit in a node. -/
theorem run_refines {cs : List (Call V)} (hkeys : ∀ c ∈ cs, c.key.length ≤ NODE_MAX_SIZE) :
    ∃ t, runOut call raxNew cs = some (t, specOut mapCall ∅ cs) ∧ Refines t (specEnd mapCall ∅ cs) := by
  have hstart : Refines (raxNew : Tree V) ∅ ∧ Fitting (∅ : AList fun _ : Bytes => V) :=
    ⟨refines_raxNew, fun k hk => absurd hk (AList.notMem_empty k)⟩
  obtain ⟨t, hrun, ht, -⟩ := simulates_call.run hstart (guarded_of_forall hkeys)
  exact ⟨t, hrun, ht⟩

variable {n : Node V} {cs : List (UInt8 × Node V)}

/-- The key of a node, behind what is below the node. -/
theorem lists_key {M : Bytes → Option V} {ks : List Bytes} {vs : List V} (h : Lists M ks vs) (hnil : M [] = none)
    (key : Option V) : Lists (Function.update M [] key) (ks ++ (key.map fun _ => []).toList) (vs ++ key.toList) := by
  cases key with
  | none =>
    rw [← hnil, Function.update_eq_self, hnil]
    simpa using h
  | some v => exact h.insert hnil v

theorem get_plain_key (key : Option V) (cs : List (UInt8 × Node V)) :
    (Node.plain key cs).get = Function.update (Node.plain none cs).get [] key := by
  funext k
  cases k with
  | nil => rw [get_plain_nil, Function.update_self]
  | cons c k => rw [Function.update_of_ne (List.cons_ne_nil c k), get_plain_cons, get_plain_cons]

/-- The children are freed with their values. -/
theorem freeChildren_spec (hsorted : (cs.map Prod.fst).Nodup)
    (h : ∀ e ∈ cs, ∃ ks, Lists e.2.get ks e.2.recursiveFree.1 ∧ e.2.recursiveFree.2 = e.2.nodes) :
    ∃ ks, Lists (Node.plain none cs).get ks (freeChildren cs).1 ∧ (freeChildren cs).2 = nodesOf cs := by
  induction cs with
  | nil =>
    rw [freeChildren, get_plain_none]
    exact ⟨[], lists_noText, nodesOf_nil.symm⟩
  | cons e es ih =>
    rw [List.map_cons, List.nodup_cons] at hsorted
    obtain ⟨hfirst, hrest⟩ := List.forall_mem_cons.mp h
    obtain ⟨ks, hks, hnodes⟩ := hfirst
    obtain ⟨ks', hks', hnodes'⟩ := ih hsorted.2 hrest
    have hget : (Node.plain none (e :: es)).get = graft [e.1] e.2.get (Node.plain none es).get :=
      @get_plain_middle V e.2 none e.1 [] es List.not_mem_nil
    refine ⟨ks' ++ ks.map ([e.1] ++ ·), ?_, ?_⟩
    · rw [hget, freeChildren]
      exact hks.graft hks' (get_plain_free hsorted.1).symm
    · rw [freeChildren, nodesOf_cons]
      dsimp only
      omega

/-- A node is freed with everything below it. -/
theorem recursiveFree_spec (h : n.Ok) :
    ∃ ks, Lists n.get ks n.recursiveFree.1 ∧ n.recursiveFree.2 = n.nodes := by
  induction h with
  | leaf v =>
    rw [Node.recursiveFree, get_leaf, nodes_leaf]
    exact ⟨[[]], lists_noText.insert rfl v, rfl⟩
  | plain key cs sorted slots children alive ih =>
    have hnodup : (cs.map Prod.fst).Nodup := sorted.imp UInt8.ne_of_lt
    obtain ⟨ks, hks, hnodes⟩ := freeChildren_spec hnodup ih
    rw [Node.recursiveFree, get_plain_key, nodes_plain, ← hnodes, Nat.add_comm]
    exact ⟨_, lists_key hks get_plain_nil key, rfl⟩
  | compr key str n two fits child alive ih =>
    have hne : str ≠ [] := List.ne_nil_of_length_pos (by omega)
    obtain ⟨ks, hks, hnodes⟩ := ih
    have hbelow := hks.graft lists_noText (graft_noText_noText str)
    have hnil : graft str n.get noText [] = none :=
      (graft_outside fun hp => hne (List.prefix_nil.mp hp)).trans (noText_apply _)
    have hget : (Node.compr key str n).get = Function.update (graft str n.get noText) [] key := by
      funext k
      rw [get_compr hne]
      obtain ⟨k', rfl, heq⟩ | ⟨hp, heq⟩ := graft_cases str n.get (Node.plain key []).get k
      · rw [heq, Function.update_of_ne (List.append_ne_nil_of_left_ne_nil hne k'), graft_append]
      · rw [heq]
        cases k with
        | nil => rw [get_plain_nil, Function.update_self]
        | cons c k =>
          rw [get_plain_cons, getChild_nil, Function.update_of_ne (List.cons_ne_nil c k), graft_outside hp,
            noText_apply]
    rw [Node.recursiveFree, hget, nodes_compr, ← hnodes, Nat.add_comm]
    exact ⟨_, lists_key hbelow hnil key, rfl⟩

/-- **The end of a tree**: the assertion holds, and every key gives its value to the callback once. -/
theorem raxFree_spec (h : t.Ok) : ∃ ks vs, raxFreeWithCallback t = some vs ∧ Lists t.get ks vs := by
  obtain ⟨ks, hks, hnodes⟩ := recursiveFree_spec h.head.1
  refine ⟨ks, _, ?_, hks⟩
  unfold raxFreeWithCallback
  dsimp only
  rw [if_pos (by rw [hnodes, h.nodes])]

/-- **An empty tree** is the tree of `raxNew`: no node is left behind. -/
theorem eq_raxNew (h : t.Ok) (hempty : t.numele = 0) : t = raxNew := by
  have hnone : ∀ k, t.get k = none := fun k => by
    have hkeys : keysOf t.get = ∅ := (Set.ncard_eq_zero h.finite).mp (h.keys ▸ hempty)
    by_contra hk
    have hmem : k ∈ keysOf t.get := Option.isSome_iff_ne_none.mpr hk
    rw [hkeys] at hmem
    exact hmem
  obtain ⟨head, numele, numnodes⟩ := t
  obtain ⟨⟨hok, hleaf⟩, hnodes, -, -⟩ := h
  have hlive : head.live = false := by
    by_contra hlive
    obtain ⟨k, v, hk⟩ := get_of_live hok (by simpa using hlive)
    exact absurd ((hnone k).symm.trans hk) nofun
  cases head with
  | leaf v => exact absurd hlive (by simp [Node.live])
  | compr key str n => exact absurd hlive (by simp [Node.live])
  | plain key cs =>
    have hboth : key = none ∧ cs = [] := by simpa [Node.live] using hlive
    obtain ⟨rfl, rfl⟩ := hboth
    rw [show numele = 0 from hempty, show numnodes = 1 from hnodes.trans nodes_empty]
    rfl

/-- The values of a list are those of the finite map. -/
theorem Refines.perm {ks : List Bytes} {vs : List V} (h : Refines t m) (hl : Lists t.get ks vs) :
    vs.Perm (m.entries.map Sigma.snd) := by
  have hkeys : ks.Perm m.keys := by
    refine (List.perm_ext_iff_of_nodup hl.nodup m.keys_nodup).mpr fun k => ?_
    have hmem : k ∈ m.keys ↔ (t.get k).isSome := by rw [h.get, AList.lookup_isSome, AList.mem_keys]
    exact ⟨fun hk => hmem.mpr (hl.isSome hk), fun hk => hl.mem k (hmem.mp hk)⟩
  have hvalues : m.keys.map t.get = (m.entries.map Sigma.snd).map some := by
    rw [h.get, AList.keys, List.keys, List.map_map, List.map_map]
    refine List.map_congr_left fun e he => ?_
    exact AList.mem_lookup_iff.mpr he
  refine (List.map_perm_map_iff (Option.some_injective V)).mp ?_
  rw [← hl.values, ← hvalues]
  exact hkeys.map t.get

/-- **The end of a run**: the tree is freed to its last node, with every value once; and when all keys
    are removed, nothing is left of the run. -/
theorem run_free (cs : List (Call V)) (hkeys : ∀ c ∈ cs, c.key.length ≤ NODE_MAX_SIZE) :
    ∃ t vs, runOut call raxNew cs = some (t, specOut mapCall ∅ cs) ∧ raxFreeWithCallback t = some vs ∧
      vs.Perm ((specEnd mapCall ∅ cs).entries.map Sigma.snd) ∧
      ((specEnd mapCall ∅ cs).entries = [] → t = raxNew) := by
  obtain ⟨t, hrun, ht⟩ := run_refines hkeys
  obtain ⟨ks, vs, hfree, hlists⟩ := raxFree_spec ht.ok
  refine ⟨t, vs, hrun, hfree, ht.perm hlists, fun hempty => eq_raxNew ht.ok ?_⟩
  rw [ht.numele_eq, hempty]
  rfl

/-- Two keys and nothing else. -/
theorem run_free_two : ∃ t vs,
    runOut call raxNew [.insert [1, 2] 0, .tryInsert [1] 1] = some (t, [none, none]) ∧
      raxFreeWithCallback t = some vs ∧ vs.Perm [1, 0] := by
  obtain ⟨t, vs, hrun, hfree, hperm, -⟩ := run_free [.insert [1, 2] 0, .tryInsert [1] 1] (by
    intro c hc
    simp only [List.mem_cons, List.not_mem_nil, or_false] at hc
    rcases hc with rfl | rfl <;> decide)
  exact ⟨t, vs, hrun, hfree, hperm⟩

end DS4.Rax
