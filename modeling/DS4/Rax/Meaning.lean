import DS4.Lib.TextMap
import DS4.Rax.Tree

namespace DS4.Rax

/-!
# Radix tree — what a tree is

A node stands for a map of the texts below it, and a node in a frame for the same map behind the
bytes of the frame.

* `Node.get` — the map; `Node.nodes` — how many nodes are allocated; `Node.Ok` — the invariant.
* `get_fill`, `nodes_fill`, `ok_fill` — a node in a frame; `get_rebuild`, … — in several.
* `lowWalk_spec` — **the walk** stays in the tree and stops where the key leaves it.
* `get_of_live` — a node that is of use has a key below it.
-/

open DS4.Lib

variable {V : Type} {n : Node V} {f : Frame V} {fs : List (Frame V)} {cs : List (UInt8 × Node V)}
  {key : Option V} {str s : Bytes} {c : UInt8} {v : V}

/-! ### The map, the nodes and the invariant -/

mutual
/-- The value of a text below a node. -/
def Node.get : Node V → Bytes → Option V
  | .leaf v, k          => if k = [] then some v else none
  | .plain key _, []    => key
  | .plain _ cs, c :: k => getChild cs c k
  | .compr key str n, k =>
    if k = [] then key else if str <+: k then n.get (k.drop str.length) else none

/-- The value of a text behind a byte. -/
def getChild : List (UInt8 × Node V) → UInt8 → Bytes → Option V
  | [], _, _           => none
  | (d, n) :: es, c, k => if d = c then n.get k else getChild es c k
end

mutual
/-- How many nodes are allocated. -/
def Node.nodes : Node V → Nat
  | .leaf _      => 0
  | .plain _ cs  => 1 + nodesOf cs
  | .compr _ _ n => 1 + n.nodes

/-- The nodes of the children. -/
def nodesOf : List (UInt8 × Node V) → Nat
  | []           => 0
  | (_, n) :: es => n.nodes + nodesOf es
end

/-- A node with a key or a child. -/
def Node.live : Node V → Bool
  | .leaf _       => true
  | .plain key cs => key.isSome || !cs.isEmpty
  | .compr _ _ _  => true

/-- No value stands in a slot that has no bit. -/
def Slots (cs : List (UInt8 × Node V)) : Prop := ∀ e ∈ cs.drop LEAF_SLOTS, e.2.isLeaf = false

/-- The invariant of a node: the bytes of its edges go up, no value stands in a slot without a bit, a
    compressed node has two bytes or more, and every child is of use. -/
inductive Node.Ok : Node V → Prop
  | leaf (v : V) : Ok (.leaf v)
  | plain (key : Option V) (cs : List (UInt8 × Node V)) (sorted : (cs.map Prod.fst).Pairwise (· < ·))
      (slots : Slots cs) (children : ∀ e ∈ cs, Ok e.2) (alive : ∀ e ∈ cs, e.2.live = true) :
      Ok (.plain key cs)
  | compr (key : Option V) (str : Bytes) (n : Node V) (two : 2 ≤ str.length)
      (fits : str.length ≤ NODE_MAX_SIZE) (child : Ok n) (alive : n.live = true) : Ok (.compr key str n)

@[simp] theorem get_leaf (v : V) : (Node.leaf v).get = Function.update noText [] (some v) := by
  funext k
  rw [Node.get]
  by_cases hk : k = []
  · rw [if_pos hk, hk, Function.update_self]
  · rw [if_neg hk, Function.update_of_ne hk, noText_apply]

@[simp] theorem get_plain_nil : (Node.plain key cs).get [] = key := by rw [Node.get]

@[simp] theorem get_plain_cons (k : Bytes) : (Node.plain key cs).get (c :: k) = getChild cs c k := by
  rw [Node.get]

@[simp] theorem getChild_nil (k : Bytes) : getChild ([] : List (UInt8 × Node V)) c k = none := by
  rw [getChild]

theorem getChild_cons (e : UInt8 × Node V) (es : List (UInt8 × Node V)) (k : Bytes) :
    getChild (e :: es) c k = if e.1 = c then e.2.get k else getChild es c k := by
  rw [getChild]

@[simp] theorem nodes_leaf : (Node.leaf v).nodes = 0 := by rw [Node.nodes]

theorem nodes_plain : (Node.plain key cs).nodes = 1 + nodesOf cs := by rw [Node.nodes]

theorem nodes_compr : (Node.compr key str n).nodes = 1 + n.nodes := by rw [Node.nodes]

@[simp] theorem nodesOf_nil : nodesOf ([] : List (UInt8 × Node V)) = 0 := by rw [nodesOf]

@[simp] theorem nodesOf_cons (e : UInt8 × Node V) (es : List (UInt8 × Node V)) :
    nodesOf (e :: es) = e.2.nodes + nodesOf es := by
  rw [nodesOf]

@[simp] theorem nodesOf_append (cs es : List (UInt8 × Node V)) :
    nodesOf (cs ++ es) = nodesOf cs + nodesOf es := by
  induction cs with
  | nil => simp
  | cons e cs ih =>
    rw [List.cons_append, nodesOf_cons, nodesOf_cons, ih]
    omega

/-- Without children, and without a key either. -/
theorem get_plain_none : (Node.plain none [] : Node V).get = noText := by
  funext k
  cases k with
  | nil => rw [get_plain_nil, noText_apply]
  | cons c k => rw [get_plain_cons, getChild_nil, noText_apply]

/-- A byte that no edge has. -/
theorem getChild_of_notMem (h : c ∉ cs.map Prod.fst) (k : Bytes) : getChild cs c k = none := by
  induction cs with
  | nil => rw [getChild_nil]
  | cons e cs ih =>
    rw [List.map_cons, List.mem_cons, not_or] at h
    rw [getChild_cons, if_neg (Ne.symm h.1), ih h.2]

/-- One child between others that do not have its byte. -/
theorem getChild_middle {before after : List (UInt8 × Node V)} {d : UInt8} (k : Bytes)
    (h : c ∉ before.map Prod.fst) :
    getChild (before ++ (c, n) :: after) d k = if c = d then n.get k else getChild (before ++ after) d k := by
  induction before with
  | nil => rw [List.nil_append, List.nil_append, getChild_cons]
  | cons e es ih =>
    rw [List.map_cons, List.mem_cons, not_or] at h
    rw [List.cons_append, List.cons_append, getChild_cons, getChild_cons, ih h.2]
    by_cases hcd : c = d
    · rw [if_neg (hcd ▸ Ne.symm h.1), if_pos hcd, if_pos hcd]
    · rw [if_neg hcd, if_neg hcd]

/-- A child behind a byte that was free. -/
theorem get_plain_middle {before after : List (UInt8 × Node V)} (h : c ∉ before.map Prod.fst) :
    (Node.plain key (before ++ (c, n) :: after)).get = graft [c] n.get (Node.plain key (before ++ after)).get := by
  funext k
  obtain ⟨k', rfl, hk⟩ | ⟨hp, hk⟩ := graft_cases [c] n.get (Node.plain key (before ++ after)).get k
  · rw [hk, List.singleton_append, get_plain_cons, getChild_middle k' h, if_pos rfl]
  · rw [hk]
    cases k with
    | nil => rw [get_plain_nil, get_plain_nil]
    | cons d k =>
      have hne : c ≠ d := fun heq => hp (heq ▸ ⟨k, rfl⟩)
      rw [get_plain_cons, get_plain_cons, getChild_middle k h, if_neg hne]

/-- Nothing is behind a byte that no edge has. -/
theorem get_plain_free (h : c ∉ cs.map Prod.fst) :
    (Node.plain key cs).get = graft [c] noText (Node.plain key cs).get := by
  funext k
  obtain ⟨k', rfl, hk⟩ | ⟨-, hk⟩ := graft_cases [c] noText (Node.plain key cs).get k
  · rw [hk, List.singleton_append, get_plain_cons, getChild_of_notMem h, noText_apply]
  · exact hk.symm

/-- A compressed node. -/
theorem get_compr (h : str ≠ []) : (Node.compr key str n).get = graft str n.get (Node.plain key []).get := by
  funext k
  rw [Node.get]
  cases k with
  | nil =>
    have hp : ¬ str <+: [] := fun hp => h (List.prefix_nil.mp hp)
    rw [if_pos rfl, graft_outside hp, get_plain_nil]
  | cons c k =>
    rw [if_neg (List.cons_ne_nil c k)]
    by_cases hp : str <+: c :: k
    · obtain ⟨k', hk'⟩ := hp
      rw [← hk', graft_append, if_pos (List.prefix_append str k'), List.drop_left]
    · rw [if_neg hp, graft_outside hp, get_plain_cons, getChild_nil]

/-- Nothing is behind a text in a node without children. -/
theorem get_childless (h : str ≠ []) :
    (Node.plain key [] : Node V).get = graft str noText (Node.plain key []).get := by
  funext k
  obtain ⟨k', rfl, hk⟩ | ⟨-, hk⟩ := graft_cases str noText (Node.plain key [] : Node V).get k
  · obtain ⟨c, str, rfl⟩ := List.exists_cons_of_ne_nil h
    rw [hk, List.cons_append, get_plain_cons, getChild_nil, noText_apply]
  · exact hk.symm

/-! ### Frames -/

/-- The invariant of a node with an open slot. -/
inductive Frame.Ok : Frame V → Prop
  | plain (key : Option V) (before : List (UInt8 × Node V)) (c : UInt8) (after : List (UInt8 × Node V))
      (sorted : (before.map Prod.fst ++ c :: after.map Prod.fst).Pairwise (· < ·))
      (slots : ∀ e ∈ before.drop LEAF_SLOTS ++ after.drop (LEAF_SLOTS - 1 - before.length), e.2.isLeaf = false)
      (children : ∀ e ∈ before ++ after, e.2.Ok) (alive : ∀ e ∈ before ++ after, e.2.live = true) :
      Ok (.plain key before c after)
  | compr (key : Option V) (str : Bytes) (two : 2 ≤ str.length) (fits : str.length ≤ NODE_MAX_SIZE) :
      Ok (.compr key str)

/-- Has the slot a bit? -/
def Frame.slot : Frame V → Bool
  | .plain _ before _ _ => decide (before.length < LEAF_SLOTS)
  | .compr _ _          => true

/-- The bytes of the edges to a node. -/
def pathOf : List (Frame V) → Bytes
  | []      => []
  | f :: fs => pathOf fs ++ f.path

/-- What the frames have elsewhere. -/
def elsewhere : List (Frame V) → Bytes → Option V
  | []      => noText
  | f :: fs => graft (pathOf fs) f.removeChild.get (elsewhere fs)

/-- The nodes that the frames have elsewhere. -/
def framesNodes : List (Frame V) → Nat
  | []      => 0
  | f :: fs => f.removeChild.nodes + framesNodes fs

theorem Frame.Ok.notMem {before after : List (UInt8 × Node V)} (h : (Frame.plain key before c after).Ok) :
    c ∉ (before ++ after).map Prod.fst := by
  cases h with
  | plain _ _ _ _ sorted =>
    intro hmem
    rw [List.map_append, List.mem_append] at hmem
    rw [List.pairwise_append] at sorted
    obtain ⟨-, hafter, hbefore⟩ := sorted
    rcases hmem with hmem | hmem
    · exact absurd (hbefore c hmem c List.mem_cons_self) (UInt8.lt_irrefl c)
    · exact absurd ((List.pairwise_cons.mp hafter).1 c hmem) (UInt8.lt_irrefl c)

theorem Frame.Ok.path_ne_nil (h : f.Ok) : f.path ≠ [] := by
  cases h with
  | plain key before c after => exact List.cons_ne_nil c []
  | compr key str two =>
    rintro hnil
    rw [show str = [] from hnil] at two
    exact absurd two (by decide)

/-- A node in a frame. -/
theorem get_fill (h : f.Ok) (n : Node V) : (f.fill n).get = graft f.path n.get f.removeChild.get := by
  cases f with
  | plain key before c after =>
    have hnot : c ∉ before.map Prod.fst := by
      have hnot := h.notMem
      rw [List.map_append, List.mem_append, not_or] at hnot
      exact hnot.1
    exact get_plain_middle hnot
  | compr key str => exact get_compr (h.path_ne_nil)

/-- A frame without its child. -/
theorem get_removeChild (h : f.Ok) : f.removeChild.get = graft f.path noText f.removeChild.get := by
  cases f with
  | plain key before c after => exact get_plain_free h.notMem
  | compr key str => exact get_childless h.path_ne_nil

theorem nodes_fill (f : Frame V) (n : Node V) : (f.fill n).nodes = f.removeChild.nodes + n.nodes := by
  cases f with
  | plain key before c after =>
    have hcons : nodesOf ((c, n) :: after) = n.nodes + nodesOf after := nodesOf_cons (c, n) after
    rw [Frame.fill, Frame.removeChild, nodes_plain, nodes_plain, nodesOf_append, nodesOf_append, hcons]
    omega
  | compr key str => rw [Frame.fill, Frame.removeChild, nodes_compr, nodes_plain, nodesOf_nil]

theorem live_fill (f : Frame V) (n : Node V) : (f.fill n).live = true := by
  cases f with
  | plain key before c after => simp [Frame.fill, Node.live]
  | compr key str => rfl

theorem isLeaf_fill (f : Frame V) (n : Node V) : (f.fill n).isLeaf = false := by
  cases f <;> rfl

/-- Which values stand in slots without a bit. -/
theorem slots_middle {before after : List (UInt8 × Node V)} :
    Slots (before ++ (c, n) :: after) ↔
      (∀ e ∈ before.drop LEAF_SLOTS ++ after.drop (LEAF_SLOTS - 1 - before.length), e.2.isLeaf = false) ∧
        (n.isLeaf = true → before.length < LEAF_SLOTS) := by
  have hdrop : ((c, n) :: after).drop (LEAF_SLOTS - before.length) =
      if before.length < LEAF_SLOTS then after.drop (LEAF_SLOTS - 1 - before.length) else (c, n) :: after := by
    split
    · rw [show LEAF_SLOTS - before.length = LEAF_SLOTS - 1 - before.length + 1 by omega, List.drop_succ_cons]
    · rw [show LEAF_SLOTS - before.length = 0 by omega, List.drop_zero]
  unfold Slots
  rw [List.drop_append, hdrop]
  by_cases hlt : before.length < LEAF_SLOTS
  · rw [if_pos hlt]
    exact ⟨fun h => ⟨h, fun _ => hlt⟩, fun h => h.1⟩
  · rw [if_neg hlt, show LEAF_SLOTS - 1 - before.length = 0 by omega, List.drop_zero]
    constructor
    · intro h
      refine ⟨fun e he => h e ?_, fun hleaf => ?_⟩
      · rw [List.mem_append] at he ⊢
        exact he.imp_right (List.mem_cons_of_mem _)
      · have hn := h (c, n) (List.mem_append_right _ List.mem_cons_self)
        rw [hleaf] at hn
        exact absurd hn (by decide)
    · rintro ⟨h, hn⟩ e he
      rw [List.mem_append, List.mem_cons] at he
      rcases he with he | rfl | he
      · exact h e (List.mem_append_left _ he)
      · exact Bool.eq_false_iff.mpr fun hleaf => hlt (hn hleaf)
      · exact h e (List.mem_append_right _ he)

/-- A node in a frame is as it should be when both are. -/
theorem ok_fill : (f.fill n).Ok ↔ f.Ok ∧ n.Ok ∧ n.live = true ∧ (n.isLeaf = true → f.slot = true) := by
  cases f with
  | plain key before c after =>
    have hmap : (before ++ (c, n) :: after).map Prod.fst = before.map Prod.fst ++ c :: after.map Prod.fst := by
      rw [List.map_append, List.map_cons]
    constructor
    · intro h
      cases h with
      | plain _ _ sorted slots children alive =>
        obtain ⟨hslots, hslot⟩ := slots_middle.mp slots
        have hmem : ∀ e ∈ before ++ after, e ∈ before ++ (c, n) :: after := fun e he => by
          rw [List.mem_append] at he ⊢
          exact he.imp_right (List.mem_cons_of_mem _)
        have hn : (c, n) ∈ before ++ (c, n) :: after := List.mem_append_right _ List.mem_cons_self
        refine ⟨.plain _ _ _ _ (hmap ▸ sorted) hslots (fun e he => children e (hmem e he))
          fun e he => alive e (hmem e he), children _ hn, alive _ hn, fun hleaf => ?_⟩
        exact decide_eq_true (hslot hleaf)
    · rintro ⟨hf, hok, hlive, hleaf⟩
      cases hf with
      | plain _ _ _ _ sorted slots children alive =>
        have hcases : ∀ e ∈ before ++ (c, n) :: after, e = (c, n) ∨ e ∈ before ++ after := fun e he => by
          rw [List.mem_append, List.mem_cons] at he
          rw [List.mem_append]
          rcases he with he | he | he
          · exact Or.inr (Or.inl he)
          · exact Or.inl he
          · exact Or.inr (Or.inr he)
        refine .plain _ _ (hmap ▸ sorted) (slots_middle.mpr ⟨slots, fun h => of_decide_eq_true (hleaf h)⟩) ?_ ?_
        · intro e he
          rcases hcases e he with rfl | he
          · exact hok
          · exact children e he
        · intro e he
          rcases hcases e he with rfl | he
          · exact hlive
          · exact alive e he
  | compr key str =>
    constructor
    · intro h
      cases h with
      | compr _ _ _ two fits child alive => exact ⟨.compr _ _ two fits, child, alive, fun _ => rfl⟩
    · rintro ⟨hf, hok, hlive, -⟩
      cases hf with
      | compr _ _ two fits => exact .compr _ _ _ two fits hok hlive

/-- A frame without its child is as it should be. -/
theorem ok_removeChild (h : f.Ok) : f.removeChild.Ok := by
  cases h with
  | plain key before c after sorted slots children alive =>
    refine .plain _ _ ?_ ?_ children alive
    · rw [List.map_append]
      refine sorted.sublist ?_
      exact (List.sublist_cons_self c _).append_left _
    · intro e he
      refine slots e ?_
      rw [List.drop_append, List.mem_append] at he
      rw [List.mem_append]
      refine he.imp_right fun hafter => ?_
      have hsub : after.drop (LEAF_SLOTS - before.length) <:+ after.drop (LEAF_SLOTS - 1 - before.length) := by
        rw [show LEAF_SLOTS - before.length =
          (LEAF_SLOTS - 1 - before.length) + (LEAF_SLOTS - before.length - (LEAF_SLOTS - 1 - before.length)) by omega,
          ← List.drop_drop]
        exact List.drop_suffix _ _
      exact hsub.subset hafter
  | compr key str two fits =>
    exact .plain _ _ List.Pairwise.nil (fun e he => absurd he (by simp)) (fun e he => absurd he List.not_mem_nil)
      fun e he => absurd he List.not_mem_nil

/-! ### A node in several frames -/

/-- The map of a node in frames. -/
theorem get_rebuild (hfs : ∀ f ∈ fs, f.Ok) (n : Node V) :
    (rebuild fs n).get = graft (pathOf fs) n.get (elsewhere fs) := by
  induction fs generalizing n with
  | nil => rw [rebuild, pathOf, graft_nil]
  | cons f fs ih =>
    rw [List.forall_mem_cons] at hfs
    rw [rebuild, ih hfs.2, get_fill hfs.1, graft_graft, pathOf, elsewhere]

theorem nodes_rebuild (fs : List (Frame V)) (n : Node V) : (rebuild fs n).nodes = n.nodes + framesNodes fs := by
  induction fs generalizing n with
  | nil => rfl
  | cons f fs ih =>
    rw [rebuild, ih, nodes_fill, framesNodes]
    omega

/-- Can the node stand below the frames? At the top it need not be of use. -/
def Fits (n : Node V) : List (Frame V) → Prop
  | []     => n.isLeaf = false
  | f :: _ => n.live = true ∧ (n.isLeaf = true → f.slot = true)

/-- The invariant of a head: it is a node. -/
def Node.Head (n : Node V) : Prop := n.Ok ∧ n.isLeaf = false

theorem head_rebuild : (rebuild fs n).Head ↔ (∀ f ∈ fs, f.Ok) ∧ n.Ok ∧ Fits n fs := by
  induction fs generalizing n with
  | nil => exact ⟨fun h => ⟨fun f hf => absurd hf List.not_mem_nil, h⟩, fun h => h.2⟩
  | cons f fs ih =>
    have hfits : Fits (f.fill n) fs := by
      cases fs with
      | nil => exact isLeaf_fill f n
      | cons g gs => exact ⟨live_fill f n, fun h => absurd h (by rw [isLeaf_fill]; decide)⟩
    rw [rebuild, ih, ok_fill, List.forall_mem_cons]
    exact ⟨fun ⟨hfs, ⟨hf, hn, hlive, hleaf⟩, _⟩ => ⟨⟨hf, hfs⟩, hn, hlive, hleaf⟩,
      fun ⟨⟨hf, hfs⟩, hn, hlive, hleaf⟩ => ⟨hfs, ⟨hf, hn, hlive, hleaf⟩, hfits⟩⟩

/-! ### The walk -/

theorem findEdge_eq_some {before after : List (UInt8 × Node V)} (h : findEdge c cs = some (before, n, after)) :
    cs = before ++ (c, n) :: after := by
  induction cs generalizing before with
  | nil => exact absurd h nofun
  | cons e es ih =>
    rw [findEdge] at h
    by_cases he : e.1 = c
    · rw [if_pos he] at h
      obtain ⟨rfl, rfl, rfl⟩ : [] = before ∧ e.2 = n ∧ es = after := by simpa using h
      rw [List.nil_append, ← he]
    · rw [if_neg he] at h
      obtain ⟨⟨b, m, a⟩, hfound, heq⟩ := Option.map_eq_some_iff.mp h
      obtain ⟨rfl, rfl, rfl⟩ : e :: b = before ∧ m = n ∧ a = after := by simpa using heq
      rw [List.cons_append, ← ih hfound]

theorem findEdge_eq_none (h : findEdge c cs = none) : c ∉ cs.map Prod.fst := by
  induction cs with
  | nil => exact List.not_mem_nil
  | cons e es ih =>
    rw [findEdge] at h
    by_cases he : e.1 = c
    · rw [if_pos he] at h
      exact absurd h nofun
    · rw [if_neg he, Option.map_eq_none_iff] at h
      rw [List.map_cons, List.mem_cons, not_or]
      exact ⟨Ne.symm he, ih h⟩

theorem common_le (u s : Bytes) : common u s ≤ u.length := by
  induction u generalizing s with
  | nil => simp [common]
  | cons a u ih =>
    cases s with
    | nil => simp [common]
    | cons b s =>
      rw [common]
      split
      · exact Nat.succ_le_succ (ih s)
      · exact Nat.zero_le _

/-- Two texts agree as far as `common` says. -/
theorem take_common (u s : Bytes) : u.take (common u s) ++ s.drop (common u s) = s := by
  induction u generalizing s with
  | nil => simp [common]
  | cons a u ih =>
    cases s with
    | nil => simp [common]
    | cons b s =>
      rw [common]
      split
      next hab => rw [List.take_succ_cons, List.drop_succ_cons, List.cons_append, ih s, hab]
      next => rfl

/-- Behind it they differ. -/
theorem common_differ {u s t : Bytes} (hs : s.drop (common u s) = c :: t) (hlt : common u s < u.length) :
    u.getD (common u s) 0 ≠ c := by
  induction u generalizing s with
  | nil => exact absurd hlt (Nat.not_lt_zero _)
  | cons a u ih =>
    cases s with
    | nil => exact absurd hs (by simp [common])
    | cons b s =>
      rw [common] at hs hlt ⊢
      by_cases hab : a = b
      · rw [if_pos hab] at hs hlt ⊢
        rw [List.drop_succ_cons] at hs
        rw [List.getD_cons_succ]
        exact ih hs (Nat.lt_of_succ_lt_succ hlt)
      · rw [if_neg hab] at hs ⊢
        rw [List.drop_zero] at hs
        rw [List.getD_cons_zero, ← (List.cons.inj hs).1]
        exact hab

/-- Why the walk stops at a node, with the bytes that are left and the position in a compressed
    node. -/
inductive Stops : Node V → Bytes → Nat → Prop
  | leaf (v : V) (s : Bytes) : Stops (.leaf v) s 0
  | node (key : Option V) (cs : List (UInt8 × Node V)) : Stops (.plain key cs) [] 0
  | edge (key : Option V) (cs : List (UInt8 × Node V)) (c : UInt8) (s : Bytes) (free : c ∉ cs.map Prod.fst) :
      Stops (.plain key cs) (c :: s) 0
  | inside (key : Option V) (str : Bytes) (n : Node V) (j : Nat) (within : j < str.length) :
      Stops (.compr key str n) [] j
  | differ (key : Option V) (str : Bytes) (n : Node V) (j : Nat) (c : UInt8) (s : Bytes)
      (within : j < str.length) (differ : str.getD j 0 ≠ c) : Stops (.compr key str n) (c :: s) j

/-- The bytes of a compressed node that the walk has passed. -/
def Stop.passed (st : Stop V) : Bytes :=
  match st.node with
  | .compr _ str _ => str.take st.split
  | _              => []

/-- What a walk from a node gives. -/
structure Stop.From (st : Stop V) (h : Node V) (fs : List (Frame V)) (s : Bytes) : Prop where
  whole : rebuild st.frames st.node = rebuild fs h
  text : pathOf st.frames ++ (st.passed ++ st.rest) = pathOf fs ++ s
  stops : Stops st.node st.rest st.split

/-- **The walk** stays in the tree, and stops where the key leaves it. -/
theorem lowWalk_spec {fuel : Nat} {h : Node V} (hs : s.length < fuel) (hok : h.Ok) (fs : List (Frame V)) :
    (lowWalk fuel h fs s).From h fs s := by
  induction fuel generalizing h fs s with
  | zero => exact absurd hs (Nat.not_lt_zero _)
  | succ fuel ih =>
    rw [lowWalk.eq_def]
    cases hok with
    | leaf v => exact ⟨rfl, rfl, .leaf v s⟩
    | plain key cs sorted slots children alive =>
      cases s with
      | nil => exact ⟨rfl, rfl, .node key cs⟩
      | cons c s =>
        cases hedge : findEdge c cs with
        | none =>
          simp only [hedge]
          exact ⟨rfl, rfl, .edge key cs c s (findEdge_eq_none hedge)⟩
        | some found =>
          obtain ⟨before, n, after⟩ := found
          have hcs := findEdge_eq_some hedge
          have hn : n.Ok := children (c, n) (hcs ▸ List.mem_append_right _ List.mem_cons_self)
          obtain ⟨hwhole, htext, hstops⟩ :=
            ih (Nat.lt_of_succ_lt_succ hs) hn (.plain key before c after :: fs)
          simp only [hedge]
          refine ⟨?_, ?_, hstops⟩
          · rw [hwhole, rebuild, Frame.fill, ← hcs]
          · rw [htext, pathOf, Frame.path, List.append_assoc, List.singleton_append]
    | compr key str n two fits child alive =>
      cases s with
      | nil => exact ⟨rfl, rfl, .inside key str n 0 (by omega)⟩
      | cons c s =>
        have htake := take_common str (c :: s)
        by_cases hall : common str (c :: s) = str.length
        · -- the key goes on below the compressed node
          have hlen : ((c :: s).drop str.length).length < fuel := by
            rw [List.length_drop, List.length_cons]
            rw [List.length_cons] at hs
            omega
          rw [hall, List.take_length] at htake
          obtain ⟨hwhole, htext, hstops⟩ := ih hlen child (.compr key str :: fs)
          simp only [hall, if_true]
          refine ⟨?_, ?_, hstops⟩
          · rw [hwhole, rebuild, Frame.fill]
          · rw [htext, pathOf, Frame.path, List.append_assoc, htake]
        · have hlt : common str (c :: s) < str.length := by
            have hle := common_le str (c :: s)
            omega
          simp only [if_neg hall]
          refine ⟨rfl, ?_, ?_⟩
          · rw [Stop.passed, htake]
          · cases hdrop : (c :: s).drop (common str (c :: s)) with
            | nil => exact .inside key str n _ hlt
            | cons d t => exact .differ key str n _ d t hlt (common_differ hdrop hlt)

/-! ### Nodes of use -/

/-- **A node of use** has a key below it. -/
theorem get_of_live (h : n.Ok) (hlive : n.live = true) : ∃ k v, n.get k = some v := by
  induction h with
  | leaf v => exact ⟨[], v, by rw [get_leaf, Function.update_self]⟩
  | plain key cs sorted slots children alive ih =>
    cases key with
    | some v => exact ⟨[], v, get_plain_nil⟩
    | none =>
      cases cs with
      | nil => exact absurd hlive (by simp [Node.live])
      | cons e es =>
        have hmem : e ∈ e :: es := List.mem_cons_self
        obtain ⟨k, v, hk⟩ := ih e hmem (alive e hmem)
        exact ⟨e.1 :: k, v, by rw [get_plain_cons, getChild_cons, if_pos rfl, hk]⟩
  | compr key str n two fits child alive ih =>
    obtain ⟨k, v, hk⟩ := ih alive
    have hne : str ≠ [] := List.ne_nil_of_length_pos (by omega)
    exact ⟨str ++ k, v, by rw [get_compr hne, graft_append, hk]⟩

end DS4.Rax
