import Mathlib.Data.List.Basic

namespace DS4.Rax

/-!
# Radix tree — nodes, insertion and removal

The ids of tool calls are kept in a radix tree: every edge has a byte, a chain of nodes with one edge
each is one compressed node, and the value of a node without edges may stand in the slot of its
parent.

* `Node`, `Frame` — a node, and a node with a slot left open; `rebuild` — a node in what is around it.
* `lowWalk` — the walk along a key, with the nodes above the one where it stops.
* `genericInsert` — insertion, with the two ways to split a compressed node; `addKey` — the nodes for
  the bytes that are left.
* `raxFind`, `raxRemove` — lookup, and removal with the clean-up and the compression behind it.
* `raxFreeWithCallback` — the end of a tree.
-/

abbrev Bytes := List UInt8

/-- `RAX_NODE_MAX_SIZE` -/
def NODE_MAX_SIZE : Nat := 65535

/-- How many slots have a bit in `leafbitmap`. -/
def LEAF_SLOTS : Nat := 13

/-- `raxNode`, or a value that stands in the slot of its parent. -/
inductive Node (V : Type) where
  | leaf (v : V)
  | plain (key : Option V) (children : List (UInt8 × Node V))
  | compr (key : Option V) (str : Bytes) (child : Node V)

/-- A node with one of its slots left open. -/
inductive Frame (V : Type) where
  | plain (key : Option V) (before : List (UInt8 × Node V)) (c : UInt8) (after : List (UInt8 × Node V))
  | compr (key : Option V) (str : Bytes)

variable {V : Type}

namespace Frame

/-- The node with something in its slot. -/
def fill : Frame V → Node V → Node V
  | .plain key before c after, n => .plain key (before ++ (c, n) :: after)
  | .compr key str, n            => .compr key str n

/-- The bytes of the edge to the slot. -/
def path : Frame V → Bytes
  | .plain _ _ c _ => [c]
  | .compr _ str   => str

/-- `iskey` -/
def isKey : Frame V → Bool
  | .plain key _ _ _ => key.isSome
  | .compr key _     => key.isSome

/-- A compressed node, or one with a single child. -/
def single : Frame V → Bool
  | .plain _ before _ after => decide (before = [] ∧ after = [])
  | .compr _ _              => true

/-- `raxRemoveChildAtPtr`; a compressed node becomes one without children. -/
def removeChild : Frame V → Node V
  | .plain key before _ after => .plain key (before ++ after)
  | .compr key _              => .plain key []

end Frame

/-- A node in the nodes above it, the nearest one first. -/
def rebuild : List (Frame V) → Node V → Node V
  | [], n      => n
  | f :: fs, n => rebuild fs (f.fill n)

/-- `rax` -/
structure Tree (V : Type) where
  head : Node V
  numele : Nat
  numnodes : Nat

/-- `raxNew` -/
def raxNew : Tree V := ⟨.plain none [], 0, 1⟩

/-! ### The walk -/

/-- The child of a byte, with the children around it. -/
def findEdge (c : UInt8) :
    List (UInt8 × Node V) → Option (List (UInt8 × Node V) × Node V × List (UInt8 × Node V))
  | []      => none
  | e :: es =>
    if e.1 = c then some ([], e.2, es)
    else (findEdge c es).map fun (before, n, after) => (e :: before, n, after)

/-- How far two texts agree. -/
def common : Bytes → Bytes → Nat
  | a :: u, b :: v => if a = b then common u v + 1 else 0
  | _, _           => 0

/-- Where the walk stops: a node or a value in a slot, what is above it, the bytes of the key that
    are left, and how far it came into a compressed node. -/
structure Stop (V : Type) where
  node : Node V
  frames : List (Frame V)
  rest : Bytes
  split : Nat

/-- `raxLowWalk` -/
def lowWalk : Nat → Node V → List (Frame V) → Bytes → Stop V
  | 0, h, fs, s        => ⟨h, fs, s, 0⟩
  | fuel + 1, h, fs, s =>
    match h, s with
    | .leaf v, s                   => ⟨.leaf v, fs, s, 0⟩
    | h, []                        => ⟨h, fs, [], 0⟩
    | .plain key cs, c :: s        =>
      match findEdge c cs with
      | none                    => ⟨.plain key cs, fs, c :: s, 0⟩
      | some (before, n, after) => lowWalk fuel n (.plain key before c after :: fs) s
    | .compr key str child, c :: s =>
      let j := common str (c :: s)
      if j = str.length then lowWalk fuel child (.compr key str :: fs) ((c :: s).drop j)
      else ⟨.compr key str child, fs, (c :: s).drop j, j⟩

/-- The walk from the head. -/
def Tree.walk (t : Tree V) (s : Bytes) : Stop V := lowWalk (s.length + 1) t.head [] s

/-- The value where the walk stops, if the whole key was read. -/
def Stop.value (st : Stop V) : Option V :=
  match st.node with
  | .leaf v        => if st.rest = [] then some v else none
  | .plain key _   => if st.rest = [] then key else none
  | .compr key _ _ => if st.rest = [] ∧ st.split = 0 then key else none

/-- `raxFind` -/
def raxFind (t : Tree V) (s : Bytes) : Option V := (t.walk s).value

/-! ### Insertion -/

/-- `raxNodeFindChildPos` -/
def findChildPos (cs : List (UInt8 × Node V)) (c : UInt8) : Nat := (cs.takeWhile fun e => e.1 ≤ c).length

/-- A value in a slot as a node of its own. -/
def Node.materialize : Node V → Node V
  | .leaf v => .plain (some v) []
  | n       => n

/-- Is it a value in the slot of its parent? -/
def Node.isLeaf : Node V → Bool
  | .leaf _ => true
  | _       => false

/-- The nodes that `raxAddChildNoAlloc` has to move out of the last slot with a bit. -/
def movesOut (cs : List (UInt8 × Node V)) (pos : Nat) : Bool :=
  decide (pos < LEAF_SLOTS) && ((cs[LEAF_SLOTS - 1]?).any fun e => e.2.isLeaf)

/-- `raxAddChildNoAlloc`, with the new child in its place; the value in the last slot that has a bit
    becomes a node if it has to move. -/
def addChild (cs : List (UInt8 × Node V)) (c : UInt8) (n : Node V) : List (UInt8 × Node V) :=
  let pos := findChildPos cs c
  let cs := if movesOut cs pos then cs.modify (LEAF_SLOTS - 1) (fun e => (e.1, e.2.materialize)) else cs
  cs.take pos ++ (c, n) :: cs.drop pos

/-- The loop of `raxGenericInsert` for the bytes that are left, from a node that is not compressed;
    with the number of new nodes. -/
def addKey (v : V) : Nat → Option V → List (UInt8 × Node V) → Bytes → Node V × Nat
  | 0, key, cs, _            => (.plain key cs, 0)
  | _ + 1, _, cs, []         => (.plain (some v) cs, 0)
  | fuel + 1, key, cs, c :: s =>
    if cs = [] ∧ s ≠ [] then
      if (c :: s).length ≤ NODE_MAX_SIZE then (.compr key (c :: s) (.leaf v), 0)
      else
        let r := addKey v fuel none [] ((c :: s).drop NODE_MAX_SIZE)
        (.compr key ((c :: s).take NODE_MAX_SIZE) r.1, r.2 + 1)
    else
      let pos := findChildPos cs c
      let moved := if movesOut cs pos then 1 else 0
      if s = [] ∧ pos < LEAF_SLOTS then (.plain key (addChild cs c (.leaf v)), moved)
      else
        let r := addKey v fuel none [] s
        (.plain key (addChild cs c r.1), r.2 + 1 + moved)

/-- A node for a text with a child behind it; `iscompr` is set for more than one byte. -/
def mkNode (key : Option V) (str : Bytes) (child : Node V) : Node V :=
  match str with
  | [c] => .plain key [(c, child)]
  | str => .compr key str child

/-- What insertion makes of the tree: the value that was there, and whether the key is new. -/
structure Inserted (V : Type) where
  tree : Tree V
  old : Option V
  new : Bool

/-- Algorithm 1: a compressed node is split at a byte that differs, and the key goes on behind the
    split. -/
def splitInsert (v : V) (key : Option V) (str : Bytes) (child : Node V) (j : Nat) (rest : Bytes) :
    Node V × Nat :=
  let postfixStr := str.drop (j + 1)
  let post := if postfixStr = [] then child else mkNode none postfixStr child
  let r := addKey v (rest.length + 1) (if j = 0 then key else none) [(str.getD j 0, post)] rest
  (if j = 0 then r.1 else mkNode key (str.take j) r.1,
    r.2 + (if j = 0 then 0 else 1) + if postfixStr = [] then 0 else 1)

/-- Algorithm 2: the key ends inside a compressed node. -/
def splitKey (v : V) (key : Option V) (str : Bytes) (child : Node V) (j : Nat) : Node V :=
  mkNode key (str.take j) (mkNode (some v) (str.drop j) child)

/-- The node at the end of the key gets the value. -/
def setKey (v : V) (overwrite : Bool) (old : Option V) : Option V :=
  match old with
  | none   => some v
  | some w => if overwrite then some v else some w

/-- `raxGenericInsert` -/
def genericInsert (t : Tree V) (s : Bytes) (v : V) (overwrite : Bool) : Inserted V :=
  let st := t.walk s
  let put (n : Node V) (old : Option V) (nodes : Nat) : Inserted V :=
    ⟨⟨rebuild st.frames n, t.numele + (if old.isSome then 0 else 1), t.numnodes + nodes⟩, old, old.isNone⟩
  match st.node with
  | .leaf w =>
    if st.rest = [] then put (.leaf (if overwrite then v else w)) (some w) 0
    else
      let r := addKey v (st.rest.length + 1) (some w) [] st.rest
      put r.1 none (r.2 + 1)
  | .plain key cs =>
    if st.rest = [] then put (.plain (setKey v overwrite key) cs) key 0
    else
      let r := addKey v (st.rest.length + 1) key cs st.rest
      put r.1 none r.2
  | .compr key str child =>
    if st.rest = [] then
      if st.split = 0 then put (.compr (setKey v overwrite key) str child) key 0
      else put (splitKey v key str child st.split) none 1
    else
      let r := splitInsert v key str child st.split st.rest
      put r.1 none r.2

/-- `raxInsert` -/
def raxInsert (t : Tree V) (s : Bytes) (v : V) : Inserted V := genericInsert t s v true

/-- `raxTryInsert` -/
def raxTryInsert (t : Tree V) (s : Bytes) (v : V) : Inserted V := genericInsert t s v false

/-! ### Removal -/

/-- `size` -/
def Node.size : Node V → Nat
  | .leaf _        => 0
  | .plain _ cs    => cs.length
  | .compr _ str _ => str.length

/-- `iskey` -/
def Node.isKey : Node V → Bool
  | .leaf _        => true
  | .plain key _   => key.isSome
  | .compr key _ _ => key.isSome

/-- `h->iskey = 0` -/
def Node.clearKey : Node V → Node V
  | .leaf v          => .leaf v
  | .plain _ cs      => .plain none cs
  | .compr _ str n   => .compr none str n

/-- The node that stays behind a removal with the nodes above it, whether it may be compressed, and
    how many nodes were freed. -/
structure Removal (V : Type) where
  node : Node V
  frames : List (Frame V)
  trycompress : Bool
  freed : Nat

/-- `raxRemoveCleanup`, for a node without children and without a key -/
def removeCleanup (h : Node V) : List (Frame V) → Removal V
  | []      => ⟨h, [], false, 0⟩
  | f :: fs =>
    if f.isKey ∨ f.single = false ∨ fs = [] then
      ⟨f.removeChild, fs, f.removeChild.size = 1 ∧ f.removeChild.isKey = false, 1⟩
    else
      let r := removeCleanup h fs
      { r with freed := r.freed + 1 }

/-- The removal of a value in a slot. -/
def removeLeaf (f : Frame V) (fs : List (Frame V)) : Removal V :=
  let h := f.removeChild
  if h.size = 0 ∧ h.isKey = false then removeCleanup h fs else ⟨h, fs, h.size = 1 ∧ h.isKey = false, 0⟩

/-- The removal of the key of a node. -/
def removeKey (h : Node V) (fs : List (Frame V)) : Removal V :=
  if h.size = 0 then removeCleanup h.clearKey fs else ⟨h.clearKey, fs, h.size = 1, 0⟩

/-- The loop that goes up to the first node that can be compressed. -/
def goUp (h : Node V) : List (Frame V) → Node V × List (Frame V)
  | []      => (h, [])
  | f :: fs => if f.isKey ∨ f.single = false then (h, f :: fs) else goUp (f.fill h) fs

/-- The first scan, from the child of a node: how many nodes can be added to it, and how many bytes
    there are then. -/
def scanChain (comprsize : Nat) : Node V → Nat × Nat
  | .plain none [(_, n)] =>
    if NODE_MAX_SIZE < comprsize + 1 then (0, comprsize)
    else
      let r := scanChain (comprsize + 1) n
      (r.1 + 1, r.2)
  | .compr none str n    =>
    if NODE_MAX_SIZE < comprsize + str.length then (0, comprsize)
    else
      let r := scanChain (comprsize + str.length) n
      (r.1 + 1, r.2)
  | _                    => (0, comprsize)

/-- The first scan, from its first node, which has one child. -/
def chainSize : Node V → Nat × Nat
  | .plain _ [(_, n)] => scanChain 1 n
  | .compr _ str n    => scanChain str.length n
  | h                 => (0, h.size)

/-- The second scan: the bytes of the chain, the child behind it, and how many nodes are freed. It
    does not look at `NODE_MAX_SIZE`. -/
def chainText : Node V → Bytes × Node V × Nat
  | .plain none [(c, n)] =>
    let r := chainText n
    (c :: r.1, r.2.1, r.2.2 + 1)
  | .compr none str n    =>
    let r := chainText n
    (str ++ r.1, r.2.1, r.2.2 + 1)
  | n                    => ([], n, 0)

/-- The compression: the head and how many nodes there are, or nothing when the second scan writes
    past the end of the new node. -/
def compress (r : Removal V) (numnodes : Nat) : Option (Node V × Nat) :=
  if r.trycompress then
    let up := goUp r.node r.frames
    let size := chainSize up.1
    let text := chainText up.1
    if size.1 = 0 then some (rebuild r.frames r.node, numnodes)
    else if size.2 < text.1.length then none
    else some (rebuild up.2 (.compr none text.1 text.2.1), numnodes + 1 - text.2.2)
  else some (rebuild r.frames r.node, numnodes)

/-- The clean-up, the compression and the counters. -/
def finishRemove (t : Tree V) (r : Removal V) (old : V) : Option (Tree V × Option V) :=
  (compress r (t.numnodes - r.freed)).map fun (head, numnodes) => (⟨head, t.numele - 1, numnodes⟩, some old)

/-- `raxRemove`, with the value that was removed -/
def raxRemove (t : Tree V) (s : Bytes) : Option (Tree V × Option V) :=
  let st := t.walk s
  match st.node, st.frames with
  | .leaf w, f :: fs         => if st.rest = [] then finishRemove t (removeLeaf f fs) w else some (t, none)
  | .leaf _, []              => some (t, none)
  | .plain (some w) cs, fs   =>
    if st.rest = [] then finishRemove t (removeKey (.plain (some w) cs) fs) w else some (t, none)
  | .compr (some w) str n, fs =>
    if st.rest = [] ∧ st.split = 0 then finishRemove t (removeKey (.compr (some w) str n) fs) w
    else some (t, none)
  | _, _                     => some (t, none)

/-! ### The end of a tree -/

mutual
/-- `raxRecursiveFree`: the values that are given to `free_callback`, and how many nodes are freed. -/
def Node.recursiveFree : Node V → List V × Nat
  | .leaf v        => ([v], 0)
  | .plain key cs  =>
    let r := freeChildren cs
    (r.1 ++ key.toList, r.2 + 1)
  | .compr key _ n =>
    let r := n.recursiveFree
    (r.1 ++ key.toList, r.2 + 1)

/-- The children, from the last one to the first one. -/
def freeChildren : List (UInt8 × Node V) → List V × Nat
  | []           => ([], 0)
  | (_, n) :: es =>
    let r := freeChildren es
    let q := n.recursiveFree
    (r.1 ++ q.1, r.2 + q.2)
end

/-- `raxFreeWithCallback`: the values, or nothing when its assertion fails. -/
def raxFreeWithCallback (t : Tree V) : Option (List V) :=
  let r := t.head.recursiveFree
  if t.numnodes = r.2 then some r.1 else none

end DS4.Rax
