import DS4.Rax.Meaning

namespace DS4.Rax

/-!
# Radix tree — insertion

* `Tree.Ok` — the invariant of a tree: its nodes, and the two counters.
* `addKey_spec` — the nodes for the bytes that are left; `splitInsert_spec`, `splitKey_spec` — a
  compressed node is split.
* `raxFind_eq` — **lookup** gives the value that the tree has for the key.
* `genericInsert_spec` — **insertion** changes the value of the key and nothing else.
-/

open DS4.Lib

variable {V : Type} {n : Node V} {cs : List (UInt8 × Node V)} {key : Option V} {str s : Bytes} {c : UInt8}
  {v : V}

/-! ### A new child -/

@[simp] theorem get_materialize (n : Node V) : n.materialize.get = n.get := by
  cases n with
  | leaf v =>
    funext k
    rw [Node.materialize, Node.get]
    cases k with
    | nil => rw [get_plain_nil, if_pos rfl]
    | cons c k => rw [get_plain_cons, getChild_nil, if_neg (List.cons_ne_nil c k)]
  | plain key cs => rfl
  | compr key str n => rfl

theorem isLeaf_materialize (n : Node V) : n.materialize.isLeaf = false := by cases n <;> rfl

theorem live_materialize (h : n.live = true) : n.materialize.live = true := by cases n <;> first | rfl | exact h

theorem ok_plain_nil (key : Option V) : (Node.plain key []).Ok :=
  .plain key [] List.Pairwise.nil (fun e he => absurd he (by simp)) (fun e he => absurd he List.not_mem_nil)
    fun e he => absurd he List.not_mem_nil

theorem ok_materialize (h : n.Ok) : n.materialize.Ok := by
  cases n with
  | leaf v => exact ok_plain_nil (some v)
  | plain key cs => exact h
  | compr key str n => exact h

theorem nodes_materialize (n : Node V) : n.materialize.nodes = n.nodes + if n.isLeaf then 1 else 0 := by
  cases n with
  | leaf v => rw [Node.materialize, nodes_plain, nodesOf_nil, nodes_leaf]; rfl
  | plain key cs => rfl
  | compr key str n => rfl

/-- The children with the value in the last slot moved out, if it has to move. -/
def makeRoom (cs : List (UInt8 × Node V)) (pos : Nat) : List (UInt8 × Node V) :=
  if movesOut cs pos then cs.modify (LEAF_SLOTS - 1) (fun e => (e.1, e.2.materialize)) else cs

theorem addChild_eq (cs : List (UInt8 × Node V)) (c : UInt8) (n : Node V) :
    addChild cs c n = (makeRoom cs (findChildPos cs c)).take (findChildPos cs c) ++
      (c, n) :: (makeRoom cs (findChildPos cs c)).drop (findChildPos cs c) := rfl

/-- What `makeRoom` does to the children: nothing but to give a value a node of its own. -/
theorem makeRoom_cases (cs : List (UInt8 × Node V)) (pos : Nat) :
    (movesOut cs pos = false ∧ makeRoom cs pos = cs) ∨
      ∃ before after d n, cs = before ++ (d, n) :: after ∧ before.length = LEAF_SLOTS - 1 ∧ pos < LEAF_SLOTS ∧
        n.isLeaf = true ∧ movesOut cs pos = true ∧ makeRoom cs pos = before ++ (d, n.materialize) :: after := by
  cases hmoves : movesOut cs pos with
  | false => exact Or.inl ⟨rfl, by unfold makeRoom; rw [hmoves]; rfl⟩
  | true =>
    right
    have hboth := hmoves
    unfold movesOut at hboth
    rw [Bool.and_eq_true, decide_eq_true_eq] at hboth
    obtain ⟨hpos, hany⟩ := hboth
    cases hget : cs[LEAF_SLOTS - 1]? with
    | none => exact absurd (hget ▸ hany) nofun
    | some e =>
      rw [hget] at hany
      obtain ⟨hlt, hentry⟩ := List.getElem?_eq_some_iff.mp hget
      have hsplit : cs = cs.take (LEAF_SLOTS - 1) ++ e :: cs.drop (LEAF_SLOTS - 1 + 1) := by
        rw [← hentry, List.getElem_cons_drop, List.take_append_drop]
      refine ⟨cs.take (LEAF_SLOTS - 1), cs.drop (LEAF_SLOTS - 1 + 1), e.1, e.2, hsplit, ?_, hpos, hany, rfl, ?_⟩
      · rw [List.length_take]
        omega
      · unfold makeRoom
        rw [hmoves, if_pos rfl, List.modify_eq_take_cons_drop hlt, hentry]

theorem map_makeRoom (cs : List (UInt8 × Node V)) (pos : Nat) :
    (makeRoom cs pos).map Prod.fst = cs.map Prod.fst := by
  obtain ⟨-, heq⟩ | ⟨before, after, d, n, rfl, -, -, -, -, heq⟩ := makeRoom_cases cs pos
  · rw [heq]
  · rw [heq, List.map_append, List.map_append, List.map_cons, List.map_cons]

theorem getChild_makeRoom (cs : List (UInt8 × Node V)) (pos : Nat) (c : UInt8) (k : Bytes) :
    getChild (makeRoom cs pos) c k = getChild cs c k := by
  obtain ⟨-, heq⟩ | ⟨before, after, d, n, rfl, -, -, -, -, heq⟩ := makeRoom_cases cs pos
  · rw [heq]
  · rw [heq]
    clear heq
    induction before with
    | nil => rw [List.nil_append, List.nil_append, getChild_cons, getChild_cons, get_materialize]
    | cons e es ih => rw [List.cons_append, List.cons_append, getChild_cons, getChild_cons, ih]

theorem nodesOf_makeRoom (cs : List (UInt8 × Node V)) (pos : Nat) :
    nodesOf (makeRoom cs pos) = nodesOf cs + if movesOut cs pos then 1 else 0 := by
  obtain ⟨hmoves, heq⟩ | ⟨before, after, d, n, rfl, -, -, hleaf, hmoves, heq⟩ := makeRoom_cases cs pos
  · rw [heq, hmoves]
    rfl
  · have hmat : n.materialize.nodes = n.nodes + 1 := by rw [nodes_materialize, hleaf, if_pos rfl]
    rw [heq, hmoves, if_pos rfl, nodesOf_append, nodesOf_append, nodesOf_cons, nodesOf_cons]
    dsimp only
    omega

theorem children_makeRoom {pos : Nat} (hcs : ∀ e ∈ cs, e.2.Ok) (hlive : ∀ e ∈ cs, e.2.live = true) :
    (∀ e ∈ makeRoom cs pos, e.2.Ok) ∧ ∀ e ∈ makeRoom cs pos, e.2.live = true := by
  obtain ⟨-, heq⟩ | ⟨before, after, d, n, rfl, -, -, -, -, heq⟩ := makeRoom_cases cs pos
  · rw [heq]
    exact ⟨hcs, hlive⟩
  · rw [heq]
    simp only [List.mem_append, List.mem_cons] at hcs hlive ⊢
    constructor
    · rintro e (he | rfl | he)
      · exact hcs e (Or.inl he)
      · exact ok_materialize (hcs (d, n) (Or.inr (Or.inl rfl)))
      · exact hcs e (Or.inr (Or.inr he))
    · rintro e (he | rfl | he)
      · exact hlive e (Or.inl he)
      · exact live_materialize (hlive (d, n) (Or.inr (Or.inl rfl)))
      · exact hlive e (Or.inr (Or.inr he))

/-- The children from the new place on go one place further, and then none of them is a value in a
    slot without a bit. -/
theorem slots_makeRoom {pos : Nat} (h : Slots cs) :
    ∀ e ∈ (makeRoom cs pos).drop (if pos < LEAF_SLOTS then LEAF_SLOTS - 1 else LEAF_SLOTS), e.2.isLeaf = false := by
  obtain ⟨hmoves, heq⟩ | ⟨before, after, d, n, rfl, hlen, hpos, -, -, heq⟩ := makeRoom_cases cs pos
  · rw [heq]
    by_cases hpos : pos < LEAF_SLOTS
    · rw [if_pos hpos]
      intro e he
      obtain ⟨i, hi⟩ := List.mem_iff_getElem?.mp he
      rw [List.getElem?_drop] at hi
      cases i with
      | zero =>
        unfold movesOut at hmoves
        rw [decide_eq_true hpos, Bool.true_and, show LEAF_SLOTS - 1 = LEAF_SLOTS - 1 + 0 from rfl, hi] at hmoves
        exact hmoves
      | succ i =>
        refine h e (List.mem_iff_getElem?.mpr ⟨i, ?_⟩)
        rw [List.getElem?_drop, ← hi]
        congr 1
        unfold LEAF_SLOTS
        omega
    · rw [if_neg hpos]
      exact h
  · rw [heq, if_pos hpos, ← hlen, List.drop_left]
    intro e he
    rcases List.mem_cons.mp he with rfl | he
    · exact isLeaf_materialize n
    · refine h e ?_
      rw [show LEAF_SLOTS = before.length + 1 by unfold LEAF_SLOTS at hlen ⊢; omega, List.drop_append]
      simpa using Or.inr he

/-- A byte at its place among bytes that go up. -/
theorem pairwise_insert {bs : Bytes} (h : bs.Pairwise (· < ·)) (hc : c ∉ bs) :
    (bs.take (bs.takeWhile (· ≤ c)).length ++ c :: bs.drop (bs.takeWhile (· ≤ c)).length).Pairwise (· < ·) := by
  induction bs with
  | nil => exact List.pairwise_singleton _ _
  | cons b bs ih =>
    rw [List.mem_cons, not_or] at hc
    rw [List.pairwise_cons] at h
    obtain ⟨hb, hbs⟩ := h
    by_cases hbc : b ≤ c
    · have hlt : b < c := UInt8.lt_of_le_of_ne hbc (Ne.symm hc.1)
      rw [List.takeWhile_cons, if_pos (decide_eq_true hbc), List.length_cons, List.take_succ_cons,
        List.drop_succ_cons, List.cons_append, List.pairwise_cons]
      refine ⟨fun a ha => ?_, ih hbs hc.2⟩
      rw [List.mem_append, List.mem_cons] at ha
      rcases ha with ha | rfl | ha
      · exact hb a (List.mem_of_mem_take ha)
      · exact hlt
      · exact hb a (List.mem_of_mem_drop ha)
    · have hlt : c < b := UInt8.not_le.mp hbc
      rw [List.takeWhile_cons, if_neg (by simpa using hbc), List.length_nil, List.take_zero, List.drop_zero,
        List.nil_append, List.pairwise_cons]
      refine ⟨fun a ha => ?_, List.pairwise_cons.mpr ⟨hb, hbs⟩⟩
      rcases List.mem_cons.mp ha with rfl | ha
      · exact hlt
      · exact UInt8.lt_trans hlt (hb a ha)

theorem findChildPos_eq (cs : List (UInt8 × Node V)) (c : UInt8) :
    findChildPos cs c = ((cs.map Prod.fst).takeWhile (· ≤ c)).length := by
  unfold findChildPos
  rw [List.takeWhile_map, List.length_map]
  rfl

theorem findChildPos_le (cs : List (UInt8 × Node V)) (c : UInt8) : findChildPos cs c ≤ cs.length :=
  (List.takeWhile_sublist _).length_le

/-- **A new child**: the map behind its byte, its nodes, and the invariant. -/
theorem addChild_spec (h : (Node.plain key cs).Ok) (hc : c ∉ cs.map Prod.fst) (n : Node V) :
    (Node.plain key (addChild cs c n)).get = graft [c] n.get (Node.plain key cs).get ∧
      (Node.plain key (addChild cs c n)).nodes =
        (Node.plain key cs).nodes + n.nodes + (if movesOut cs (findChildPos cs c) then 1 else 0) ∧
      (n.Ok → n.live = true → (n.isLeaf = true → findChildPos cs c < LEAF_SLOTS) →
        (Node.plain key (addChild cs c n)).Ok) := by
  cases h with
  | plain _ _ sorted slots children alive =>
    have hpos : findChildPos cs c ≤ (makeRoom cs (findChildPos cs c)).length := by
      have hlen := congrArg List.length (map_makeRoom cs (findChildPos cs c))
      rw [List.length_map, List.length_map] at hlen
      rw [hlen]
      exact findChildPos_le cs c
    have hmap := map_makeRoom cs (findChildPos cs c)
    have hroom := @children_makeRoom V cs (findChildPos cs c) children alive
    have hslots := @slots_makeRoom V cs (findChildPos cs c) slots
    have hnodes := nodesOf_makeRoom cs (findChildPos cs c)
    have hget : (Node.plain key (makeRoom cs (findChildPos cs c))).get = (Node.plain key cs).get := by
      funext k
      cases k with
      | nil => rw [get_plain_nil, get_plain_nil]
      | cons d k => rw [get_plain_cons, get_plain_cons, getChild_makeRoom]
    rw [addChild_eq]
    generalize makeRoom cs (findChildPos cs c) = room at *
    have hbefore : c ∉ (room.take (findChildPos cs c)).map Prod.fst := by
      rw [← hmap] at hc
      exact fun hmem => hc (List.map_subset Prod.fst (List.take_subset _ room) hmem)
    refine ⟨?_, ?_, fun hn hlive hleaf => .plain _ _ ?_ ?_ ?_ ?_⟩
    · rw [get_plain_middle hbefore, List.take_append_drop, hget]
    · have hsum : nodesOf (room.take (findChildPos cs c)) + nodesOf (room.drop (findChildPos cs c)) =
          nodesOf room := by
        rw [← nodesOf_append, List.take_append_drop]
      have hcons : nodesOf ((c, n) :: room.drop (findChildPos cs c)) =
          n.nodes + nodesOf (room.drop (findChildPos cs c)) := nodesOf_cons _ _
      rw [nodes_plain, nodes_plain, nodesOf_append, hcons]
      omega
    · rw [List.map_append, List.map_cons, List.map_take, List.map_drop, hmap, findChildPos_eq]
      exact pairwise_insert sorted hc
    · rw [slots_middle, List.length_take, min_eq_left hpos, List.drop_drop]
      refine ⟨fun e he => ?_, hleaf⟩
      refine hslots e ?_
      rw [List.mem_append, List.drop_take] at he
      rcases he with he | he
      · refine List.drop_subset_drop_left room ?_ (List.mem_of_mem_take he)
        split <;> omega
      · refine List.drop_subset_drop_left room ?_ he
        split <;> omega
    · intro e he
      rw [List.mem_append, List.mem_cons] at he
      rcases he with he | rfl | he
      · exact hroom.1 e (List.mem_of_mem_take he)
      · exact hn
      · exact hroom.1 e (List.mem_of_mem_drop he)
    · intro e he
      rw [List.mem_append, List.mem_cons] at he
      rcases he with he | rfl | he
      · exact hroom.2 e (List.mem_of_mem_take he)
      · exact hlive
      · exact hroom.2 e (List.mem_of_mem_drop he)

/-! ### The bytes that are left -/

/-- A node that has a value more than another one, and some new nodes. -/
structure Gains (n : Node V) (more : Nat) (old : Node V) (k : Bytes) (v : V) : Prop where
  get : n.get = Function.update old.get k (some v)
  nodes : n.nodes = old.nodes + more
  ok : n.Ok
  live : n.live = true
  node : n.isLeaf = false

theorem get_mkNode (h : str ≠ []) : (mkNode key str n).get = graft str n.get (Node.plain key []).get := by
  unfold mkNode
  split
  · exact @get_plain_middle V n key _ [] [] List.not_mem_nil
  · exact get_compr h

theorem nodes_mkNode (key : Option V) (str : Bytes) (n : Node V) : (mkNode key str n).nodes = 1 + n.nodes := by
  unfold mkNode
  split
  · rw [nodes_plain, nodesOf_cons, nodesOf_nil, Nat.add_zero]
  · rw [nodes_compr]

theorem ok_mkNode (h : str ≠ []) (hfits : str.length ≤ NODE_MAX_SIZE) (hn : n.Ok) (hlive : n.live = true) :
    (mkNode key str n).Ok := by
  unfold mkNode
  split
  next c =>
    refine .plain _ _ (List.pairwise_singleton _ _) (fun e he => absurd he (by simp [LEAF_SLOTS])) ?_ ?_
    · rintro e he
      rw [List.mem_singleton.mp he]
      exact hn
    · rintro e he
      rw [List.mem_singleton.mp he]
      exact hlive
  next hne =>
    refine .compr _ _ _ ?_ hfits hn hlive
    match str, h, hne with
    | [c], _, hne => exact absurd rfl (hne c)
    | _ :: _ :: _, _, _ => simp

theorem live_mkNode (key : Option V) (str : Bytes) (n : Node V) : (mkNode key str n).live = true := by
  unfold mkNode
  split <;> simp [Node.live]

theorem isLeaf_mkNode (key : Option V) (str : Bytes) (n : Node V) : (mkNode key str n).isLeaf = false := by
  unfold mkNode
  split <;> rfl

/-- A new child that has one key. -/
theorem Gains.addChild {more : Nat} (hok : (Node.plain key cs).Ok) (hc : c ∉ cs.map Prod.fst)
    (hget : n.get = Function.update noText s (some v)) (hnodes : n.nodes = more) (hn : n.Ok)
    (hlive : n.live = true) (hleaf : n.isLeaf = true → findChildPos cs c < LEAF_SLOTS) :
    Gains (.plain key (addChild cs c n)) (more + if movesOut cs (findChildPos cs c) then 1 else 0)
      (.plain key cs) (c :: s) v := by
  obtain ⟨hget', hnodes', hok'⟩ := addChild_spec hok hc n
  refine ⟨?_, ?_, hok' hn hlive hleaf, ?_, rfl⟩
  · rw [hget', hget, ← update_graft, ← get_plain_free hc, List.singleton_append]
  · rw [hnodes', hnodes, Nat.add_assoc]
  · simp [Node.live, addChild_eq]

/-- **The bytes that are left**: the nodes for them, below a node that is not compressed. -/
theorem addKey_spec {fuel : Nat} (hs : s.length < fuel) (hok : (Node.plain key cs).Ok)
    (hfree : ∀ c s', s = c :: s' → c ∉ cs.map Prod.fst) (v : V) :
    Gains (addKey v fuel key cs s).1 (addKey v fuel key cs s).2 (.plain key cs) s v := by
  induction fuel generalizing key cs s with
  | zero => exact absurd hs (Nat.not_lt_zero _)
  | succ fuel ih =>
    cases s with
    | nil =>
      rw [addKey]
      refine ⟨?_, ?_, ?_, rfl, rfl⟩
      · funext k
        cases k with
        | nil => rw [get_plain_nil, Function.update_self]
        | cons c k => rw [Function.update_of_ne (List.cons_ne_nil c k), get_plain_cons, get_plain_cons]
      · dsimp only
        rw [nodes_plain, nodes_plain, Nat.add_zero]
      · cases hok with
        | plain _ _ sorted slots children alive => exact .plain _ _ sorted slots children alive
    | cons c s =>
      have hc : c ∉ cs.map Prod.fst := hfree c s rfl
      rw [List.length_cons] at hs
      have hnil : (Node.plain none [] : Node V).Ok := ok_plain_nil none
      rw [addKey]
      by_cases hcompr : cs = [] ∧ s ≠ []
      · obtain ⟨rfl, hne⟩ := hcompr
        have hlen : 0 < s.length := List.length_pos_iff.mpr hne
        rw [if_pos ⟨rfl, hne⟩]
        by_cases hfits : (c :: s).length ≤ NODE_MAX_SIZE
        · rw [if_pos hfits]
          refine ⟨?_, ?_, .compr _ _ _ (by rw [List.length_cons]; omega) hfits (.leaf v) rfl, rfl, rfl⟩
          · have hend := update_graft (c :: s) noText (Node.plain key [] : Node V).get [] (some v)
            rw [List.append_nil, ← get_childless (List.cons_ne_nil c s)] at hend
            rw [get_compr (List.cons_ne_nil c s), get_leaf, hend]
          · rw [nodes_compr, nodes_plain, nodes_leaf, nodesOf_nil]
        · rw [if_neg hfits]
          -- the key is longer than a node
          have htake : (c :: s).take NODE_MAX_SIZE ≠ [] := by
            refine List.ne_nil_of_length_pos ?_
            rw [List.length_take, List.length_cons]
            unfold NODE_MAX_SIZE
            omega
          have hdrop : ((c :: s).drop NODE_MAX_SIZE).length < fuel := by
            rw [List.length_drop, List.length_cons]
            unfold NODE_MAX_SIZE
            omega
          obtain ⟨hget, hnodes, hokr, hlive, -⟩ := ih hdrop hnil fun _ _ _ => List.not_mem_nil
          refine ⟨?_, ?_, .compr _ _ _ ?_ ?_ hokr hlive, rfl, rfl⟩
          · have hend := update_graft ((c :: s).take NODE_MAX_SIZE) noText (Node.plain key [] : Node V).get
              ((c :: s).drop NODE_MAX_SIZE) (some v)
            rw [List.take_append_drop, ← get_childless htake] at hend
            rw [get_compr htake, hget, get_plain_none, hend]
          · rw [nodes_plain, nodesOf_nil] at hnodes
            rw [nodes_compr, hnodes, nodes_plain, nodesOf_nil]
            dsimp only
            omega
          · rw [List.length_take]
            unfold NODE_MAX_SIZE at hfits ⊢
            omega
          · rw [List.length_take]
            omega
      · rw [if_neg hcompr]
        by_cases hleaf : s = [] ∧ findChildPos cs c < LEAF_SLOTS
        · obtain ⟨rfl, hpos⟩ := hleaf
          have hgain := @Gains.addChild V (.leaf v) _ _ [] _ v 0 hok hc (get_leaf v) nodes_leaf (.leaf v) rfl
            fun _ => hpos
          rw [Nat.zero_add] at hgain
          simp only [hpos, and_self, if_true]
          exact hgain
        · obtain ⟨hget, hnodes, hokr, hlive, hnode⟩ :=
            ih (s := s) (by omega) hnil fun _ _ _ => List.not_mem_nil
          rw [get_plain_none] at hget
          rw [nodes_plain, nodesOf_nil, Nat.add_zero, Nat.add_comm] at hnodes
          simp only [if_neg hleaf]
          exact Gains.addChild hok hc hget hnodes hokr hlive fun h => absurd h (by rw [hnode]; decide)

/-! ### A compressed node is split -/

theorem getD_drop {j : Nat} (h : j < str.length) : str.getD j 0 :: str.drop (j + 1) = str.drop j := by
  rw [List.drop_eq_getElem_cons h, List.getD_eq_getElem?_getD, List.getElem?_eq_getElem h, Option.getD_some]

/-- Without a key, and nothing elsewhere. -/
theorem graft_singleton_childless (c : UInt8) (key : Option V) :
    graft [c] noText (Node.plain key [] : Node V).get = (Node.plain key []).get :=
  (get_childless (List.cons_ne_nil c [])).symm

/-- **Algorithm 1**: a key that differs inside a compressed node. -/
theorem splitInsert_spec {j : Nat} (hok : (Node.compr key str n).Ok) (hj : j < str.length)
    (hc : str.getD j 0 ≠ c) (v : V) :
    Gains (splitInsert v key str n j (c :: s)).1 (splitInsert v key str n j (c :: s)).2 (.compr key str n)
      (str.take j ++ c :: s) v := by
  cases hok with
  | compr _ _ _ two fits child alive =>
    have hne : str ≠ [] := List.ne_nil_of_length_pos (by omega)
    -- the node for what is behind the byte that differs
    obtain ⟨post, hpost, hpostGet, hpostNodes, hpostOk, hpostLive⟩ : ∃ post,
        (if str.drop (j + 1) = [] then n else mkNode none (str.drop (j + 1)) n) = post ∧
        post.get = graft (str.drop (j + 1)) n.get noText ∧
        post.nodes = n.nodes + (if str.drop (j + 1) = [] then 0 else 1) ∧ post.Ok ∧ post.live = true := by
      by_cases hnil : str.drop (j + 1) = []
      · exact ⟨n, if_pos hnil, by rw [hnil, graft_nil], by rw [if_pos hnil]; rfl, child, alive⟩
      · refine ⟨_, if_neg hnil, ?_, ?_, ok_mkNode hnil ?_ child alive, live_mkNode _ _ _⟩
        · rw [get_mkNode hnil, get_plain_none]
        · rw [nodes_mkNode, if_neg hnil, Nat.add_comm]
        · rw [List.length_drop]
          omega
    have hsplitOk : ∀ k : Option V, (Node.plain k [(str.getD j 0, post)]).Ok := fun k => by
      refine .plain _ _ (List.pairwise_singleton _ _) (fun e he => absurd he (by simp [LEAF_SLOTS])) ?_ ?_
      · intro e he
        rw [List.mem_singleton.mp he]
        exact hpostOk
      · intro e he
        rw [List.mem_singleton.mp he]
        exact hpostLive
    have hsplitGet : ∀ k : Option V, (Node.plain k [(str.getD j 0, post)]).get =
        graft (str.drop j) n.get (Node.plain k []).get := fun k => by
      have hmiddle := @get_plain_middle V post k (str.getD j 0) [] [] List.not_mem_nil
      rw [List.nil_append, List.nil_append, hpostGet, graft_graft, graft_singleton_childless,
        List.singleton_append, getD_drop hj] at hmiddle
      exact hmiddle
    have hfree : ∀ d s', c :: s = d :: s' → d ∉ [(str.getD j 0, post)].map Prod.fst := by
      rintro d s' heq hmem
      rw [List.map_singleton, List.mem_singleton, ← (List.cons.inj heq).1] at hmem
      exact hc hmem.symm
    obtain ⟨hget, hnodes, hokr, hlive, hnode⟩ := @addKey_spec V _ _ _ ((c :: s).length + 1) (Nat.lt_succ_self _)
      (hsplitOk (if j = 0 then key else none)) hfree v
    rw [hsplitGet] at hget
    rw [nodes_plain, nodesOf_cons, nodesOf_nil, hpostNodes] at hnodes
    unfold splitInsert
    dsimp only
    rw [hpost]
    by_cases hj0 : j = 0
    · simp only [hj0, if_true] at *
      refine ⟨?_, ?_, hokr, hlive, hnode⟩
      · rw [hget, List.drop_zero, List.take_zero, List.nil_append, get_compr hne]
      · rw [hnodes, nodes_compr]
        omega
    · simp only [if_neg hj0] at *
      have htake : str.take j ≠ [] := List.ne_nil_of_length_pos (by rw [List.length_take]; omega)
      refine ⟨?_, ?_, ok_mkNode htake (by rw [List.length_take]; omega) hokr hlive, live_mkNode _ _ _,
        isLeaf_mkNode _ _ _⟩
      · have hwhole : (Node.compr key str n).get =
            graft (str.take j) (graft (str.drop j) n.get noText) (Node.plain key []).get := by
          rw [graft_graft, List.take_append_drop, ← get_childless htake, get_compr hne]
        rw [get_mkNode htake, hget, hwhole, update_graft, get_plain_none]
      · rw [nodes_mkNode, hnodes, nodes_compr]
        omega

/-- **Algorithm 2**: a key that ends inside a compressed node. -/
theorem splitKey_spec {j : Nat} (hok : (Node.compr key str n).Ok) (hj0 : 0 < j) (hj : j < str.length) (v : V) :
    Gains (splitKey v key str n j) 1 (.compr key str n) (str.take j) v := by
  cases hok with
  | compr _ _ _ two fits child alive =>
    have hne : str ≠ [] := List.ne_nil_of_length_pos (by omega)
    have htake : str.take j ≠ [] := List.ne_nil_of_length_pos (by rw [List.length_take]; omega)
    have hdrop : str.drop j ≠ [] := List.ne_nil_of_length_pos (by rw [List.length_drop]; omega)
    have hpost : (mkNode (some v) (str.drop j) n).Ok :=
      ok_mkNode hdrop (by rw [List.length_drop]; omega) child alive
    refine ⟨?_, ?_, ok_mkNode htake (by rw [List.length_take]; omega) hpost (live_mkNode _ _ _),
      live_mkNode _ _ _, isLeaf_mkNode _ _ _⟩
    · have hwhole : (Node.compr key str n).get =
          graft (str.take j) (graft (str.drop j) n.get noText) (Node.plain key []).get := by
        rw [graft_graft, List.take_append_drop, ← get_childless htake, get_compr hne]
      have hkey : (mkNode (some v) (str.drop j) n).get =
          Function.update (graft (str.drop j) n.get noText) [] (some v) := by
        funext k
        rw [get_mkNode hdrop]
        obtain ⟨k', rfl, hk⟩ | ⟨hp, hk⟩ := graft_cases (str.drop j) n.get (Node.plain (some v) []).get k
        · rw [hk, Function.update_of_ne (List.append_ne_nil_of_left_ne_nil hdrop k'), graft_append]
        · rw [hk]
          cases k with
          | nil => rw [get_plain_nil, Function.update_self]
          | cons d k =>
            rw [get_plain_cons, getChild_nil, Function.update_of_ne (List.cons_ne_nil d k),
              graft_outside hp, noText_apply]
      have hupdate := update_graft (str.take j) (graft (str.drop j) n.get noText) (Node.plain key [] : Node V).get
        [] (some v)
      rw [List.append_nil] at hupdate
      rw [splitKey, get_mkNode htake, hkey, hwhole, hupdate]
    · rw [splitKey, nodes_mkNode, nodes_mkNode, nodes_compr]
      omega

/-! ### The tree -/

/-- The map of a tree. -/
def Tree.get (t : Tree V) : Bytes → Option V := t.head.get

/-- The invariant of a tree: its nodes are as they should be, and both counters count. -/
structure Tree.Ok (t : Tree V) : Prop where
  head : t.head.Head
  nodes : t.numnodes = t.head.nodes
  finite : (keysOf t.get).Finite
  keys : t.numele = (keysOf t.get).ncard

variable {t : Tree V}

/-- An empty tree. -/
theorem ok_raxNew : (raxNew : Tree V).Ok ∧ (raxNew : Tree V).get = noText := by
  have hget : (raxNew : Tree V).get = noText := get_plain_none
  refine ⟨⟨⟨ok_plain_nil none, rfl⟩, ?_, ?_, ?_⟩, hget⟩
  · exact (nodes_plain.trans (by rw [nodesOf_nil]; rfl)).symm
  · rw [hget, keysOf_noText]
    exact Set.finite_empty
  · rw [hget, keysOf_noText, Set.ncard_empty]
    rfl

theorem walk_spec (h : t.Ok) (s : Bytes) :
    rebuild (t.walk s).frames (t.walk s).node = t.head ∧
      pathOf (t.walk s).frames ++ ((t.walk s).passed ++ (t.walk s).rest) = s ∧
      Stops (t.walk s).node (t.walk s).rest (t.walk s).split := by
  obtain ⟨hwhole, htext, hstops⟩ := lowWalk_spec (Nat.lt_succ_self s.length) h.head.1 []
  exact ⟨hwhole, htext, hstops⟩

/-- The value at a stop. -/
theorem Stop.value_eq {st : Stop V} (h : Stops st.node st.rest st.split) :
    st.node.get (st.passed ++ st.rest) = st.value := by
  obtain ⟨node, frames, rest, j⟩ := st
  dsimp only at h
  cases h with
  | leaf v s =>
    simp only [Stop.value, Stop.passed, List.nil_append]
    rw [Node.get]
  | node key cs => simp only [Stop.value, Stop.passed, List.nil_append, get_plain_nil, if_true]
  | edge key cs c s free =>
    simp only [Stop.value, Stop.passed, List.nil_append, get_plain_cons, getChild_of_notMem free, reduceCtorEq,
      if_false]
  | inside key str n j within =>
    simp only [Stop.value, Stop.passed, List.append_nil, true_and]
    rw [Node.get]
    by_cases hj : j = 0
    · rw [hj, List.take_zero, if_pos rfl, if_pos rfl]
    · have hne : str.take j ≠ [] := List.ne_nil_of_length_pos (by rw [List.length_take]; omega)
      have hp : ¬ str <+: str.take j := fun hp => by
        have hle := hp.length_le
        rw [List.length_take] at hle
        omega
      rw [if_neg hne, if_neg hp, if_neg hj]
  | differ key str n j c s within differ =>
    have hp : ¬ str <+: str.take j ++ c :: s := by
      intro hp
      have hdrop : str = str.take j ++ str.getD j 0 :: str.drop (j + 1) := by
        rw [getD_drop within, List.take_append_drop]
      have hp' : str.take j ++ str.getD j 0 :: str.drop (j + 1) <+: str.take j ++ c :: s := hdrop ▸ hp
      rw [List.prefix_append_right_inj] at hp'
      exact differ (List.cons_prefix_cons.mp hp').1
    have hne : str.take j ++ c :: s ≠ [] := List.append_ne_nil_of_right_ne_nil _ (List.cons_ne_nil c s)
    simp only [Stop.value, Stop.passed, reduceCtorEq, false_and, if_false]
    rw [Node.get, if_neg hne, if_neg hp]

/-- The tree from the node where the walk stops. -/
theorem get_at {fs : List (Frame V)} (h : t.Ok) (hwhole : rebuild fs n = t.head) (k : Bytes) :
    t.get (pathOf fs ++ k) = n.get k := by
  have hframes := (head_rebuild.mp (hwhole ▸ h.head)).1
  rw [Tree.get, ← hwhole, get_rebuild hframes, graft_append]

/-- **Lookup** gives the value that the tree has for the key. -/
theorem raxFind_eq (h : t.Ok) (s : Bytes) : raxFind t s = t.get s := by
  obtain ⟨hwhole, htext, hstops⟩ := walk_spec h s
  have hget := get_at h hwhole ((t.walk s).passed ++ (t.walk s).rest)
  rw [htext, Stop.value_eq hstops] at hget
  exact hget.symm

/-- A node at the place of another one. -/
theorem rebuild_update {fs : List (Frame V)} {old : Node V} (h : t.Ok) (hwhole : rebuild fs old = t.head)
    (hn : n.Ok) (hfits : Fits n fs) {more : Nat} (hnodes : n.nodes = old.nodes + more) (k : Bytes) (x : Option V)
    (hget : n.get = Function.update old.get k x) :
    (rebuild fs n).Head ∧ (rebuild fs n).nodes = t.numnodes + more ∧
      (rebuild fs n).get = Function.update t.get (pathOf fs ++ k) x := by
  have hframes := (head_rebuild.mp (hwhole ▸ h.head)).1
  refine ⟨head_rebuild.mpr ⟨hframes, hn, hfits⟩, ?_, ?_⟩
  · rw [h.nodes, ← hwhole, nodes_rebuild, nodes_rebuild, hnodes]
    omega
  · rw [Tree.get, ← hwhole, get_rebuild hframes, get_rebuild hframes, hget, update_graft]

/-- A tree with a value more. -/
structure Tree.Gains (t' t : Tree V) (s : Bytes) (v : V) : Prop where
  ok : t'.Ok
  get : t'.get = Function.update t.get s (some v)

/-- A node with a value more at the place of another one. -/
theorem Gains.rebuild {fs : List (Frame V)} {old : Node V} {more : Nat} {k : Bytes} (h : t.Ok)
    (hwhole : rebuild fs old = t.head) (hn : n.Ok) (hfits : Fits n fs) (hnodes : n.nodes = old.nodes + more)
    (hget : n.get = Function.update old.get k (some v)) (htext : pathOf fs ++ k = s) :
    (⟨DS4.Rax.rebuild fs n, t.numele + (if (t.get s).isSome then 0 else 1), t.numnodes + more⟩ : Tree V).Gains t
      s v := by
  obtain ⟨hhead, hcount, hnew⟩ := rebuild_update h hwhole hn hfits hnodes k (some v) hget
  rw [htext] at hnew
  have hkeys := ncard_keysOf_insert h.finite s v
  refine ⟨⟨hhead, hcount.symm, ?_, ?_⟩, hnew⟩
  · rw [Tree.get, hnew, keysOf_insert]
    exact h.finite.insert s
  · have hall : (keysOf (DS4.Rax.rebuild fs n).get).ncard = t.numele + if (t.get s).isSome then 0 else 1 := by
      rw [hnew, hkeys, ← h.keys]
    exact hall.symm

/-! ### Insertion -/

/-- What insertion has to give. -/
structure Inserted.Spec (r : Inserted V) (t : Tree V) (s : Bytes) (v : V) (overwrite : Bool) : Prop where
  old : r.old = t.get s
  new : r.new = (t.get s).isNone
  ok : r.tree.Ok
  get : r.tree.get = if overwrite = true ∨ t.get s = none then Function.update t.get s (some v) else t.get

/-- The value of the key is written. -/
theorem Inserted.spec_of_gains {head : Node V} {nodes : Nat} {x : Option V} {overwrite : Bool}
    (hx : t.get s = x) (how : overwrite = true ∨ x = none)
    (h : (⟨head, t.numele + (if (t.get s).isSome then 0 else 1), nodes⟩ : Tree V).Gains t s v) :
    (⟨⟨head, t.numele + (if x.isSome then 0 else 1), nodes⟩, x, x.isNone⟩ : Inserted V).Spec t s v overwrite := by
  subst hx
  exact ⟨rfl, rfl, h.ok, by rw [if_pos how, ← h.get]⟩

/-- The value of the key is kept. -/
theorem Inserted.spec_of_same {head : Node V} {w : V} (h : t.Ok) (hx : t.get s = some w) (hhead : head = t.head) :
    (⟨⟨head, t.numele + 0, t.numnodes + 0⟩, some w, false⟩ : Inserted V).Spec t s v false := by
  subst hhead
  exact ⟨hx.symm, by rw [hx]; rfl, h, by rw [hx, if_neg (by simp)]; rfl⟩

/-- The key of a node of its own. -/
theorem get_setKey (cs : List (UInt8 × Node V)) (key : Option V) (v : V) :
    (Node.plain (some v) cs).get = Function.update (Node.plain key cs).get [] (some v) := by
  funext k
  cases k with
  | nil => rw [get_plain_nil, Function.update_self]
  | cons c k => rw [Function.update_of_ne (List.cons_ne_nil c k), get_plain_cons, get_plain_cons]

theorem get_setKey_compr (str : Bytes) (n : Node V) (key : Option V) (v : V) :
    (Node.compr (some v) str n).get = Function.update (Node.compr key str n).get [] (some v) := by
  funext k
  cases k with
  | nil => rw [Function.update_self, Node.get, if_pos rfl]
  | cons c k =>
    rw [Function.update_of_ne (List.cons_ne_nil c k), Node.get, Node.get, if_neg (List.cons_ne_nil c k),
      if_neg (List.cons_ne_nil c k)]

/-- A node of use at the place of a node. -/
theorem fits_of_node {fs : List (Frame V)} (hlive : n.live = true) (hnode : n.isLeaf = false) : Fits n fs := by
  cases fs with
  | nil => exact hnode
  | cons f fs => exact ⟨hlive, fun h => absurd h (by rw [hnode]; decide)⟩

/-- **Insertion** gives the old value, and changes the value of the key and nothing else; without
    `overwrite` only if there was none. -/
theorem genericInsert_spec (h : t.Ok) (s : Bytes) (v : V) (overwrite : Bool) :
    (genericInsert t s v overwrite).Spec t s v overwrite := by
  obtain ⟨hwhole, htext, hstops⟩ := walk_spec h s
  have hget := get_at h hwhole ((t.walk s).passed ++ (t.walk s).rest)
  rw [htext, Stop.value_eq hstops] at hget
  unfold genericInsert
  generalize t.walk s = st at *
  obtain ⟨node, frames, rest, j⟩ := st
  obtain ⟨hframes, hnode, hfits⟩ := head_rebuild.mp (hwhole ▸ h.head)
  dsimp only at *
  cases hstops with
  | leaf w s' =>
    simp only [Stop.passed, List.nil_append, Stop.value] at htext hget
    by_cases hrest : rest = []
    · -- a value in a slot is written over
      subst hrest
      cases overwrite with
      | true =>
        refine Inserted.spec_of_gains hget (Or.inl rfl) ?_
        refine @Gains.rebuild V _ _ _ _ _ _ 0 _ h hwhole (.leaf v) ?_ (by rw [nodes_leaf, nodes_leaf]) ?_ htext
        · cases frames with
          | nil => exact hfits
          | cons f fs => exact hfits
        · rw [get_leaf, get_leaf, Function.update_idem]
          rfl
      | false => exact Inserted.spec_of_same h hget hwhole
    · -- it becomes a node, and the key goes on below
      have hlt : rest.length < rest.length + 1 := Nat.lt_succ_self _
      obtain ⟨hget', hnodes, hok, hlive, hisnode⟩ :=
        @addKey_spec V [] (some w) _ _ hlt (ok_plain_nil _) (fun _ _ _ => List.not_mem_nil) v
      have hsame : (Node.plain (some w) []).get = (Node.leaf w).get := get_materialize (.leaf w)
      rw [if_neg hrest] at hget
      simp only [if_neg hrest]
      refine Inserted.spec_of_gains hget (Or.inr rfl) ?_
      refine Gains.rebuild h hwhole hok (fits_of_node hlive hisnode) ?_ ?_ htext
      · rw [hnodes, nodes_plain, nodesOf_nil, nodes_leaf]
        omega
      · rw [hget', hsame]
  | node key cs =>
    simp only [Stop.passed, List.nil_append, Stop.value, if_true] at htext hget ⊢
    have hlive : (Node.plain (some v) cs).live = true := rfl
    have hok : (Node.plain (some v) cs).Ok := by
      cases hnode with
      | plain _ _ sorted slots children alive => exact .plain _ _ sorted slots children alive
    have hgain := @Gains.rebuild V _ _ _ _ _ _ 0 _ h hwhole hok (fits_of_node hlive rfl)
      (by rw [nodes_plain, nodes_plain, Nat.add_zero]) (get_setKey cs key v) htext
    cases key with
    | none => exact Inserted.spec_of_gains hget (Or.inr rfl) hgain
    | some w =>
      cases overwrite with
      | true => exact Inserted.spec_of_gains hget (Or.inl rfl) hgain
      | false => exact Inserted.spec_of_same h hget hwhole
  | edge key cs c s' free =>
    simp only [Stop.passed, List.nil_append, Stop.value, reduceCtorEq, if_false] at htext hget ⊢
    have hfree : ∀ d s'', c :: s' = d :: s'' → d ∉ cs.map Prod.fst := fun d s'' heq =>
      (List.cons.inj heq).1 ▸ free
    obtain ⟨hget', hnodes, hok, hlive, hisnode⟩ := addKey_spec (Nat.lt_succ_self (c :: s').length) hnode hfree v
    refine Inserted.spec_of_gains hget (Or.inr rfl) ?_
    exact Gains.rebuild h hwhole hok (fits_of_node hlive hisnode) hnodes hget' htext
  | inside key str n j within =>
    simp only [Stop.passed, List.append_nil, Stop.value, true_and, if_true] at htext hget ⊢
    by_cases hj : j = 0
    · rw [if_pos hj] at hget ⊢
      rw [hj, List.take_zero] at htext
      have hok : (Node.compr (some v) str n).Ok := by
        cases hnode with
        | compr _ _ _ two fits child alive => exact .compr _ _ _ two fits child alive
      have hgain := @Gains.rebuild V _ _ _ _ _ _ 0 _ h hwhole hok (fits_of_node rfl rfl)
        (by rw [nodes_compr, nodes_compr, Nat.add_zero]) (get_setKey_compr str n key v) htext
      cases key with
      | none => exact Inserted.spec_of_gains hget (Or.inr rfl) hgain
      | some w =>
        cases overwrite with
        | true => exact Inserted.spec_of_gains hget (Or.inl rfl) hgain
        | false => exact Inserted.spec_of_same h hget hwhole
    · rw [if_neg hj] at hget ⊢
      obtain ⟨hget', hnodes, hok, hlive, hisnode⟩ := splitKey_spec hnode (by omega) within v
      refine Inserted.spec_of_gains hget (Or.inr rfl) ?_
      exact Gains.rebuild h hwhole hok (fits_of_node hlive hisnode) hnodes hget' htext
  | differ key str n j c s' within differ =>
    simp only [Stop.passed, Stop.value, reduceCtorEq, false_and, if_false] at htext hget ⊢
    obtain ⟨hget', hnodes, hok, hlive, hisnode⟩ := splitInsert_spec (s := s') hnode within differ v
    refine Inserted.spec_of_gains hget (Or.inr rfl) ?_
    exact Gains.rebuild h hwhole hok (fits_of_node hlive hisnode) hnodes hget' htext

end DS4.Rax
