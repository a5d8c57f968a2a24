import DS4.Rax.Insert

namespace DS4.Rax

/-!
# Radix tree — removal

* `removeCleanup_spec`, `removeLeaf_spec`, `removeKey_spec` — what the clean-up leaves.
* `goUp_spec`, `scanChain_spec`, `chainText_spec` — the chain of nodes that can be compressed.
* `raxRemove_spec` — **removal** takes the key out and nothing else, if it stays within the new node.
* `raxRemove_of_short` — it does when the keys that are left fit in a node.
-/

open DS4.Lib

variable {V : Type} {n h : Node V} {f : Frame V} {fs : List (Frame V)} {cs : List (UInt8 × Node V)}
  {key : Option V} {str s : Bytes} {c : UInt8} {v w : V}

/-! ### The clean-up -/

/-- A node without a key that has one child. -/
inductive Chain : Node V → Prop
  | byte (c : UInt8) (n : Node V) : Chain (.plain none [(c, n)])
  | text (str : Bytes) (n : Node V) : Chain (.compr none str n)

theorem Chain.live (hchain : Chain h) : h.live = true := by cases hchain <;> rfl

/-- What a removal leaves of a tree with the nodes `total`: the map `m`. -/
structure Removal.Spec (r : Removal V) (total : Nat) (m : Bytes → Option V) : Prop where
  get : (rebuild r.frames r.node).get = m
  nodes : (rebuild r.frames r.node).nodes + r.freed = total
  head : (rebuild r.frames r.node).Head
  chain : r.trycompress = true → Chain r.node

/-- A frame without its child, if it has no key and no other child. -/
theorem removeChild_eq (hkey : f.isKey = false) (hsingle : f.single = true) : f.removeChild = .plain none [] := by
  cases f with
  | plain key before c after =>
    have hboth : before = [] ∧ after = [] := of_decide_eq_true hsingle
    rw [Frame.removeChild, hboth.1, hboth.2, Option.isSome_eq_false_iff.mp hkey |> Option.isNone_iff_eq_none.mp]
    rfl
  | compr key str =>
    rw [Frame.removeChild, Option.isNone_iff_eq_none.mp (Option.isSome_eq_false_iff.mp hkey)]

/-- Is the node of use without the child? -/
theorem live_removeChild (h : f.isKey = true ∨ f.single = false) : f.removeChild.live = true := by
  cases f with
  | plain key before c after =>
    rw [Frame.removeChild, Node.live, Bool.or_eq_true]
    refine h.imp id fun hsingle => ?_
    have hnot : ¬ (before = [] ∧ after = []) := of_decide_eq_false hsingle
    cases before with
    | nil =>
      cases after with
      | nil => exact absurd ⟨rfl, rfl⟩ hnot
      | cons e es => rfl
    | cons e es => rfl
  | compr key str =>
    rw [Frame.removeChild, Node.live, Bool.or_eq_true]
    exact h.imp id fun hsingle => absurd hsingle (by simp [Frame.single])

theorem isLeaf_removeChild (f : Frame V) : f.removeChild.isLeaf = false := by cases f <;> rfl

/-- With one child and no key it can be compressed. -/
theorem chain_of_size (hsize : f.removeChild.size = 1) (hkey : f.removeChild.isKey = false) :
    Chain f.removeChild := by
  have hplain : ∃ key cs, f.removeChild = .plain key cs := by cases f <;> exact ⟨_, _, rfl⟩
  obtain ⟨key, cs, heq⟩ := hplain
  rw [heq] at hsize hkey ⊢
  obtain ⟨⟨c, n⟩, rfl⟩ := List.length_eq_one_iff.mp hsize
  obtain rfl : key = none := Option.isNone_iff_eq_none.mp (Option.isSome_eq_false_iff.mp hkey)
  exact .byte c n

/-- Without a child it has no node. -/
theorem removeChild_of_size (hsize : f.removeChild.size = 0) (hkey : f.removeChild.isKey = false) :
    f.removeChild = .plain none [] := by
  have hplain : ∃ key cs, f.removeChild = .plain key cs := by cases f <;> exact ⟨_, _, rfl⟩
  obtain ⟨key, cs, heq⟩ := hplain
  rw [heq] at hsize hkey ⊢
  obtain rfl : cs = [] := List.length_eq_zero_iff.mp hsize
  obtain rfl : key = none := Option.isNone_iff_eq_none.mp (Option.isSome_eq_false_iff.mp hkey)
  rfl

theorem nodes_empty : (Node.plain none [] : Node V).nodes = 1 := by rw [nodes_plain, nodesOf_nil]

/-- The frames around a node without a map. -/
theorem get_rebuild_cleared (hfs : ∀ g ∈ f :: fs, g.Ok) (hn : n.get = noText) :
    (rebuild (f :: fs) n).get = (rebuild fs f.removeChild).get := by
  rw [List.forall_mem_cons] at hfs
  rw [rebuild, get_rebuild hfs.2, get_rebuild hfs.2, get_fill hfs.1, hn, ← get_removeChild hfs.1]

/-- **The clean-up** takes away nodes that are of no use. -/
theorem removeCleanup_spec (hfs : ∀ f ∈ fs, f.Ok) :
    (removeCleanup (.plain none []) fs).Spec (rebuild fs (.plain none [])).nodes
      (rebuild fs (.plain none [])).get := by
  induction fs with
  | nil => exact ⟨rfl, rfl, ⟨ok_plain_nil none, rfl⟩, fun h => absurd h (by simp [removeCleanup])⟩
  | cons f fs ih =>
    have htail := (List.forall_mem_cons.mp hfs).2
    have hget := get_rebuild_cleared hfs get_plain_none
    rw [removeCleanup]
    by_cases hstop : f.isKey ∨ f.single = false ∨ fs = []
    · rw [if_pos hstop]
      refine ⟨hget.symm, ?_, head_rebuild.mpr ⟨htail, ok_removeChild (hfs f List.mem_cons_self), ?_⟩, ?_⟩
      · rw [nodes_rebuild, nodes_rebuild, framesNodes, nodes_empty]
        dsimp only
        omega
      · cases fs with
        | nil => exact isLeaf_removeChild f
        | cons g gs =>
          have hlive : f.removeChild.live = true := by
            refine live_removeChild ?_
            rcases hstop with hkey | hsingle | hnil
            · exact Or.inl hkey
            · exact Or.inr hsingle
            · exact absurd hnil (List.cons_ne_nil g gs)
          exact fits_of_node hlive (isLeaf_removeChild f)
      · intro htry
        obtain ⟨hsize, hkey⟩ := of_decide_eq_true htry
        exact chain_of_size hsize hkey
    · rw [if_neg hstop]
      rw [not_or, not_or, Bool.not_eq_true, Bool.not_eq_false] at hstop
      have hempty := removeChild_eq hstop.1 hstop.2.1
      obtain ⟨hget', hnodes, hhead, hchain⟩ := ih htail
      refine ⟨?_, ?_, hhead, hchain⟩
      · rw [hget, hempty]
        exact hget'
      · rw [nodes_rebuild fs, nodes_empty] at hnodes
        rw [nodes_rebuild (f :: fs), nodes_empty, framesNodes, hempty, nodes_empty]
        dsimp only
        omega

/-- **A value in a slot** is removed. -/
theorem removeLeaf_spec (hhead : (rebuild (f :: fs) (.leaf w)).Head) :
    (removeLeaf f fs).Spec (rebuild (f :: fs) (.leaf w)).nodes
      (Function.update (rebuild (f :: fs) (.leaf w)).get (pathOf (f :: fs)) none) := by
  obtain ⟨hfs, -, -⟩ := head_rebuild.mp hhead
  have htail := (List.forall_mem_cons.mp hfs).2
  have hnodes : (rebuild fs f.removeChild).nodes = (rebuild (f :: fs) (.leaf w)).nodes := by
    rw [nodes_rebuild, nodes_rebuild, framesNodes, nodes_leaf, Nat.zero_add]
  have hget : (rebuild fs f.removeChild).get =
      Function.update (rebuild (f :: fs) (.leaf w)).get (pathOf (f :: fs)) none := by
    have hnone : Function.update (Node.leaf w).get [] none = noText := by
      rw [get_leaf, Function.update_idem]
      exact Function.update_eq_self [] noText
    have hupdate := update_graft (pathOf (f :: fs)) (Node.leaf w).get (elsewhere (f :: fs)) [] none
    rw [List.append_nil, hnone] at hupdate
    rw [get_rebuild hfs, hupdate, ← get_rebuild_cleared hfs get_plain_none, get_rebuild hfs, get_plain_none]
  unfold removeLeaf
  dsimp only
  by_cases hclean : f.removeChild.size = 0 ∧ f.removeChild.isKey = false
  · rw [if_pos hclean, ← hget, ← hnodes, removeChild_of_size hclean.1 hclean.2]
    exact removeCleanup_spec htail
  · rw [if_neg hclean]
    have hlive : f.removeChild.live = true := by
      have hplain : ∃ key cs, f.removeChild = .plain key cs := by cases f <;> exact ⟨_, _, rfl⟩
      obtain ⟨key, cs, heq⟩ := hplain
      rw [heq] at hclean ⊢
      cases cs with
      | nil =>
        cases key with
        | none => exact absurd ⟨rfl, rfl⟩ hclean
        | some x => rfl
      | cons e es => simp [Node.live]
    refine ⟨hget, hnodes, head_rebuild.mpr ⟨htail, ok_removeChild (hfs f List.mem_cons_self), ?_⟩, ?_⟩
    · exact fits_of_node hlive (isLeaf_removeChild f)
    · intro htry
      obtain ⟨hsize, hkey⟩ := of_decide_eq_true htry
      exact chain_of_size hsize hkey

/-- **The key of a node** is removed. -/
theorem removeKey_spec (hhead : (rebuild fs h).Head) (hkey : h.isLeaf = false) :
    (removeKey h fs).Spec (rebuild fs h).nodes (Function.update (rebuild fs h).get (pathOf fs) none) := by
  obtain ⟨hfs, hok, -⟩ := head_rebuild.mp hhead
  have hclear : h.clearKey.get = Function.update h.get [] none ∧ h.clearKey.nodes = h.nodes ∧ h.clearKey.Ok ∧
      h.clearKey.isLeaf = false := by
    cases hok with
    | leaf v => exact absurd hkey (by simp [Node.isLeaf])
    | plain key cs sorted slots children alive =>
      refine ⟨?_, by rw [Node.clearKey, nodes_plain, nodes_plain], .plain _ _ sorted slots children alive, rfl⟩
      funext k
      cases k with
      | nil => rw [Function.update_self, Node.clearKey, get_plain_nil]
      | cons c k =>
        rw [Function.update_of_ne (List.cons_ne_nil c k), Node.clearKey, get_plain_cons, get_plain_cons]
    | compr key str n two fits child alive =>
      refine ⟨?_, by rw [Node.clearKey, nodes_compr, nodes_compr], .compr _ _ _ two fits child alive, rfl⟩
      funext k
      cases k with
      | nil => rw [Function.update_self, Node.clearKey, Node.get, if_pos rfl]
      | cons c k =>
        rw [Function.update_of_ne (List.cons_ne_nil c k), Node.clearKey, Node.get, Node.get,
          if_neg (List.cons_ne_nil c k), if_neg (List.cons_ne_nil c k)]
  obtain ⟨hget, hnodes, hok', hleaf⟩ := hclear
  have hgetAll : (rebuild fs h.clearKey).get = Function.update (rebuild fs h).get (pathOf fs) none := by
    have hupdate := update_graft (pathOf fs) h.get (elsewhere fs) [] none
    rw [List.append_nil] at hupdate
    rw [get_rebuild hfs, get_rebuild hfs, hupdate, hget]
  have hnodesAll : (rebuild fs h.clearKey).nodes = (rebuild fs h).nodes := by
    rw [nodes_rebuild, nodes_rebuild, hnodes]
  unfold removeKey
  by_cases hsize : h.size = 0
  · have hempty : h.clearKey = .plain none [] := by
      cases hok with
      | leaf v => exact absurd hkey (by simp [Node.isLeaf])
      | plain key cs sorted slots children alive =>
        obtain rfl : cs = [] := List.length_eq_zero_iff.mp hsize
        rfl
      | compr key str n two fits child alive =>
        rw [Node.size] at hsize
        omega
    rw [if_pos hsize, ← hgetAll, ← hnodesAll, hempty]
    exact removeCleanup_spec hfs
  · rw [if_neg hsize]
    have hlive : h.clearKey.live = true := by
      cases hok with
      | leaf v => rfl
      | plain key cs sorted slots children alive =>
        cases cs with
        | nil => exact absurd rfl hsize
        | cons e es => rfl
      | compr key str n two fits child alive => rfl
    refine ⟨hgetAll, hnodesAll, head_rebuild.mpr ⟨hfs, hok', fits_of_node hlive hleaf⟩, fun htry => ?_⟩
    have hone : h.size = 1 := of_decide_eq_true htry
    cases hok with
    | leaf v => exact absurd hkey (by simp [Node.isLeaf])
    | plain key cs sorted slots children alive =>
      obtain ⟨⟨c, n⟩, rfl⟩ := List.length_eq_one_iff.mp hone
      exact .byte c n
    | compr key str n two fits child alive => exact .text str n

/-! ### The compression -/

/-- Going up stays in the tree. -/
theorem goUp_spec (hchain : Chain h) (fs : List (Frame V)) :
    rebuild (goUp h fs).2 (goUp h fs).1 = rebuild fs h ∧ Chain (goUp h fs).1 := by
  induction fs generalizing h with
  | nil => exact ⟨rfl, hchain⟩
  | cons f fs ih =>
    rw [goUp]
    by_cases hstop : f.isKey ∨ f.single = false
    · rw [if_pos hstop]
      exact ⟨rfl, hchain⟩
    · rw [if_neg hstop]
      rw [not_or, Bool.not_eq_true, Bool.not_eq_false] at hstop
      refine ih ?_
      cases f with
      | plain key before c after =>
        obtain rfl : key = none := Option.isNone_iff_eq_none.mp (Option.isSome_eq_false_iff.mp hstop.1)
        obtain ⟨rfl, rfl⟩ : before = [] ∧ after = [] := of_decide_eq_true hstop.2
        exact .byte c h
      | compr key str =>
        obtain rfl : key = none := Option.isNone_iff_eq_none.mp (Option.isSome_eq_false_iff.mp hstop.1)
        exact .text str h

/-- What the second scan collects. -/
structure TextOf (h : Node V) (text : Bytes × Node V × Nat) : Prop where
  get : h.get = graft text.1 text.2.1.get noText
  nodes : h.nodes = text.2.1.nodes + text.2.2
  ok : text.2.1.Ok
  live : text.2.1.live = true
  length : text.2.2 ≤ text.1.length

/-- **The second scan** collects the bytes of the chain. -/
theorem chainText_spec (hok : h.Ok) (hlive : h.live = true) : TextOf h (chainText h) := by
  induction hok with
  | leaf v => exact ⟨(graft_nil _ _).symm, rfl, .leaf v, rfl, Nat.le_refl _⟩
  | plain key cs sorted slots children alive ih =>
    have hwhole : (Node.plain key cs).Ok := .plain _ _ sorted slots children alive
    clear sorted slots children
    match key, cs, ih, alive, hwhole with
    | none, [(c, n)], ih, alive, _ =>
      obtain ⟨hget, hnodes, hok, hlive, hlength⟩ := ih (c, n) List.mem_cons_self (alive _ List.mem_cons_self)
      dsimp only at hget hnodes
      rw [chainText]
      refine ⟨?_, ?_, hok, hlive, Nat.succ_le_succ hlength⟩
      · have hmiddle := @get_plain_middle V n none c [] [] List.not_mem_nil
        rw [List.nil_append, List.nil_append, get_plain_none, hget, graft_graft, graft_noText_noText] at hmiddle
        exact hmiddle
      · rw [nodes_plain, nodesOf_cons, nodesOf_nil]
        dsimp only
        omega
    | none, [], _, _, _ => exact absurd hlive (by simp [Node.live])
    | none, _ :: _ :: _, _, _, hwhole => exact ⟨(graft_nil _ _).symm, rfl, hwhole, rfl, Nat.le_refl _⟩
    | some x, [], _, _, hwhole => exact ⟨(graft_nil _ _).symm, rfl, hwhole, rfl, Nat.le_refl _⟩
    | some x, _ :: _, _, _, hwhole => exact ⟨(graft_nil _ _).symm, rfl, hwhole, rfl, Nat.le_refl _⟩
  | compr key str n two fits child alive ih =>
    cases key with
    | none =>
      obtain ⟨hget, hnodes, hok, hlive, hlength⟩ := ih alive
      have hne : str ≠ [] := List.ne_nil_of_length_pos (by omega)
      rw [chainText]
      refine ⟨?_, ?_, hok, hlive, ?_⟩
      · rw [get_compr hne, get_plain_none, hget, graft_graft, graft_noText_noText]
      · rw [nodes_compr]
        dsimp only
        omega
      · rw [List.length_append]
        dsimp only
        omega
    | some x =>
      exact ⟨(graft_nil _ _).symm, rfl, .compr _ _ _ two fits child alive, rfl, Nat.le_refl _⟩

/-- **The first scan** counts the whole chain, or stops because it is longer than a node. -/
theorem scanChain_spec (size : Nat) (h : Node V) (hsize : size ≤ NODE_MAX_SIZE) :
    (scanChain size h).1 ≤ (chainText h).2.2 ∧ (scanChain size h).2 ≤ NODE_MAX_SIZE ∧
      ((scanChain size h).2 = size + (chainText h).1.length ∨
        ((scanChain size h).2 < size + (chainText h).1.length ∧
          NODE_MAX_SIZE < size + (chainText h).1.length)) := by
  fun_induction scanChain size h with
  | case1 size c n hfull =>
    rw [chainText]
    refine ⟨Nat.zero_le _, hsize, Or.inr ?_⟩
    rw [List.length_cons]
    dsimp only
    omega
  | case2 size c n hroom r ih =>
    obtain ⟨hcount, hmax, hlength⟩ := ih (by omega)
    have hr : r.2 = (scanChain (size + 1) n).2 := rfl
    rw [chainText]
    refine ⟨Nat.succ_le_succ hcount, hmax, ?_⟩
    rw [List.length_cons]
    dsimp only
    omega
  | case3 size str n hfull =>
    rw [chainText]
    refine ⟨Nat.zero_le _, hsize, ?_⟩
    rw [List.length_append]
    dsimp only
    omega
  | case4 size str n hroom r ih =>
    obtain ⟨hcount, hmax, hlength⟩ := ih (by omega)
    have hr : r.2 = (scanChain (size + str.length) n).2 := rfl
    rw [chainText]
    refine ⟨Nat.succ_le_succ hcount, hmax, ?_⟩
    rw [List.length_append]
    dsimp only
    omega
  | case5 h size hplain htext =>
    have hend : chainText h = ([], h, 0) := by
      unfold chainText
      split
      · exact absurd rfl (hplain _ _)
      · exact absurd rfl (htext _ _)
      · rfl
    rw [hend]
    exact ⟨Nat.le_refl 0, hsize, Or.inl rfl⟩

/-- The first scan from the node where it starts. -/
theorem chainSize_spec (hok : h.Ok) (hchain : Chain h) :
    (chainSize h).1 < (chainText h).2.2 ∧ (chainSize h).2 ≤ NODE_MAX_SIZE ∧
      ((chainSize h).2 = (chainText h).1.length ∨
        ((chainSize h).2 < (chainText h).1.length ∧ NODE_MAX_SIZE < (chainText h).1.length)) := by
  cases hchain with
  | byte c n =>
    obtain ⟨hcount, hmax, hlength⟩ := scanChain_spec 1 n (by decide)
    rw [chainSize, chainText, List.length_cons]
    refine ⟨Nat.lt_succ_of_le hcount, hmax, ?_⟩
    omega
  | text str n =>
    cases hok with
    | compr _ _ _ two fits child alive =>
      obtain ⟨hcount, hmax, hlength⟩ := scanChain_spec str.length n fits
      rw [chainSize, chainText, List.length_append]
      exact ⟨Nat.lt_succ_of_le hcount, hmax, hlength⟩

/-- The keys that a map has are not longer than `k` bytes. -/
def Short (k : Nat) (m : Bytes → Option V) : Prop := ∀ s ∈ keysOf m, s.length ≤ k

/-- **The compression** leaves the map as it is, or writes past the end of the new node; it does not
    when the keys fit in a node. -/
theorem compress_spec {r : Removal V} {total : Nat} {m : Bytes → Option V} (hr : r.Spec total m) :
    (∀ head nodes, compress r (total - r.freed) = some (head, nodes) →
      head.Head ∧ head.get = m ∧ nodes = head.nodes) ∧
      (Short NODE_MAX_SIZE m → compress r (total - r.freed) ≠ none) := by
  have hnodes : total - r.freed = (rebuild r.frames r.node).nodes := by
    have h := hr.nodes
    omega
  have hkeep : ∀ head nodes, some (rebuild r.frames r.node, total - r.freed) = some (head, nodes) →
      head.Head ∧ head.get = m ∧ nodes = head.nodes := by
    intro head nodes heq
    obtain ⟨rfl, rfl⟩ := Prod.mk.inj (Option.some.inj heq)
    exact ⟨hr.head, hr.get, hnodes⟩
  unfold compress
  cases htry : r.trycompress with
  | false => exact ⟨hkeep, fun _ => nofun⟩
  | true =>
    obtain ⟨hup, hchain⟩ := goUp_spec (hr.chain htry) r.frames
    obtain ⟨hfs, hok, hfits⟩ := head_rebuild.mp (hup ▸ hr.head)
    obtain ⟨hget, hcount, hokText, hliveText, hlenText⟩ := chainText_spec hok hchain.live
    obtain ⟨hmore, hmax, hlength⟩ := chainSize_spec hok hchain
    simp only [if_true]
    by_cases hsize : (chainSize (goUp r.node r.frames).1).1 = 0
    · rw [if_pos hsize]
      exact ⟨hkeep, fun _ => nofun⟩
    · rw [if_neg hsize]
      by_cases hover : (chainSize (goUp r.node r.frames).1).2 < (chainText (goUp r.node r.frames).1).1.length
      · rw [if_pos hover]
        refine ⟨fun head nodes h => absurd h nofun, fun hshort => ?_⟩
        -- a key goes through the whole chain
        obtain ⟨k, x, hk⟩ := get_of_live hokText hliveText
        have hkey : m (pathOf (goUp r.node r.frames).2 ++ ((chainText (goUp r.node r.frames).1).1 ++ k)) = some x := by
          rw [← hr.get, ← hup, get_rebuild hfs, graft_append, hget, graft_append, hk]
        have hle := hshort _ (by rw [mem_keysOf, hkey]; rfl)
        rw [List.length_append, List.length_append] at hle
        omega
      · rw [if_neg hover]
        refine ⟨fun head nodes h => ?_, fun _ => nofun⟩
        obtain ⟨rfl, rfl⟩ := Prod.mk.inj (Option.some.inj h)
        have hne : (chainText (goUp r.node r.frames).1).1 ≠ [] := List.ne_nil_of_length_pos (by omega)
        refine ⟨head_rebuild.mpr ⟨hfs, ?_, fits_of_node rfl rfl⟩, ?_, ?_⟩
        · exact .compr _ _ _ (by omega) (by omega) hokText hliveText
        · rw [← hr.get, ← hup, get_rebuild hfs, get_rebuild hfs, get_compr hne, hget, get_plain_none]
        · rw [hnodes, ← hup, nodes_rebuild, nodes_rebuild, nodes_compr, hcount]
          omega

/-! ### Removal -/

variable {t : Tree V}

/-- What removal has to give. -/
structure RemoveSpec (r : Option (Tree V × Option V)) (t : Tree V) (s : Bytes) : Prop where
  tree : ∀ t' old, r = some (t', old) →
    old = t.get s ∧ t'.Ok ∧ t'.get = Function.update t.get s none ∧ (t.get s = none → t' = t)
  short : Short NODE_MAX_SIZE (Function.update t.get s none) → r ≠ none

/-- A key that the tree does not have. -/
theorem RemoveSpec.same (h : t.Ok) (hs : t.get s = none) : RemoveSpec (some (t, none)) t s := by
  refine ⟨fun t' old heq => ?_, fun _ => nofun⟩
  obtain ⟨rfl, rfl⟩ := Prod.mk.inj (Option.some.inj heq)
  refine ⟨hs.symm, h, ?_, fun _ => rfl⟩
  rw [← hs, Function.update_eq_self]

/-- A key that is removed. -/
theorem RemoveSpec.removed {r : Removal V} (h : t.Ok) (hs : t.get s = some w)
    (hr : r.Spec t.numnodes (Function.update t.get s none)) : RemoveSpec (finishRemove t r w) t s := by
  obtain ⟨hsome, hshort⟩ := compress_spec hr
  unfold finishRemove
  refine ⟨fun t' old heq => ?_, fun hle hnone => hshort hle (Option.map_eq_none_iff.mp hnone)⟩
  obtain ⟨⟨head, nodes⟩, hcompress, heq⟩ := Option.map_eq_some_iff.mp heq
  obtain ⟨rfl, rfl⟩ := Prod.mk.inj heq
  obtain ⟨hhead, hget, hnodes⟩ := hsome head nodes hcompress
  have hkeys : (keysOf head.get).ncard = t.numele - 1 := by
    rw [hget, ncard_keysOf_erase (by rw [hs]; rfl), h.keys]
  refine ⟨hs.symm, ⟨hhead, hnodes, ?_, hkeys.symm⟩, hget, fun hnone => absurd (hs.symm.trans hnone) nofun⟩
  rw [Tree.get, hget, keysOf_erase]
  exact h.finite.sdiff

/-- **Removal** gives the old value, and takes the key out and nothing else, or it writes past the end
    of the new node; it does not when the keys that are left fit in a node. -/
theorem raxRemove_spec (h : t.Ok) (s : Bytes) : RemoveSpec (raxRemove t s) t s := by
  obtain ⟨hwhole, htext, hstops⟩ := walk_spec h s
  have hget := get_at h hwhole ((t.walk s).passed ++ (t.walk s).rest)
  rw [htext, Stop.value_eq hstops] at hget
  unfold raxRemove
  generalize t.walk s = st at *
  obtain ⟨node, frames, rest, j⟩ := st
  dsimp only at *
  have hhead : (rebuild frames node).Head := by
    rw [hwhole]
    exact h.head
  have hnodes : (rebuild frames node).nodes = t.numnodes := by rw [hwhole, h.nodes]
  have hmap : (rebuild frames node).get = t.get := by rw [hwhole, Tree.get]
  cases hstops with
  | leaf w s' =>
    simp only [Stop.passed, List.nil_append, Stop.value] at htext hget
    cases frames with
    | nil => exact absurd (head_rebuild.mp hhead).2.2 (by simp [Fits, Node.isLeaf])
    | cons f fs =>
      by_cases hrest : rest = []
      · rw [if_pos hrest] at hget
        rw [hrest, List.append_nil] at htext
        have hspec := removeLeaf_spec hhead
        rw [hnodes, hmap, htext] at hspec
        simp only [if_pos hrest]
        exact .removed h hget hspec
      · rw [if_neg hrest] at hget
        simp only [if_neg hrest]
        exact .same h hget
  | node key cs =>
    simp only [Stop.passed, List.append_nil, Stop.value, if_true] at htext hget ⊢
    cases key with
    | none => exact .same h hget
    | some w =>
      have hspec := removeKey_spec hhead rfl
      rw [hnodes, hmap, htext] at hspec
      exact .removed h hget hspec
  | edge key cs c s' free =>
    simp only [Stop.value, reduceCtorEq, if_false] at hget ⊢
    cases key with
    | none => exact .same h hget
    | some w => exact .same h hget
  | inside key str n j within =>
    simp only [Stop.passed, List.append_nil, Stop.value, true_and] at htext hget ⊢
    cases key with
    | none =>
      refine .same h ?_
      rw [hget]
      split <;> rfl
    | some w =>
      by_cases hj : j = 0
      · rw [if_pos hj] at hget
        rw [hj, List.take_zero, List.append_nil] at htext
        have hspec := removeKey_spec hhead rfl
        rw [hnodes, hmap, htext] at hspec
        simp only [if_pos hj]
        exact .removed h hget hspec
      · rw [if_neg hj] at hget
        simp only [if_neg hj]
        exact .same h hget
  | differ key str n j c s' within differ =>
    simp only [Stop.value, reduceCtorEq, false_and, if_false] at hget ⊢
    cases key with
    | none => exact .same h hget
    | some w => exact .same h hget

end DS4.Rax
